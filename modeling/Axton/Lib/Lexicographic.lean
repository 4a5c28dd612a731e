import Mathlib.Data.Char
import Mathlib.Data.List.Basic
import Mathlib.Data.List.Lex
import Mathlib.Data.String.Basic

/-!
# Lexicographic order through encodings

The order of lists, `<` on `List α`, of what is written in one alphabet for words of another.

* `flatMap_lt_iff` — a code whose words are told apart by an element, the smaller first, keeps the order;
* `append_sentinel_lt_iff` — words closed by an element smaller than theirs are compared first;
* `append_lt_append_iff` — of two words none of which starts the other, what follows does not matter;
* `utf8_lt_iff` — UTF-8 is such a code, so that byte order is code point order;
* `sublist_pair` — two ordered lists agree on the order of what they share.
-/

namespace Axton

namespace Lexicographic

section
variable {α β : Type} [LinearOrder α] [LinearOrder β]

theorem append_left_lt_iff (p a b : List α) : p ++ a < p ++ b ↔ a < b := by
  induction p with
  | nil => rfl
  | cons x p ih => simp [ih]

/-- After a common start `a` goes on with the smaller element. -/
def Separated (a b : List α) : Prop := ∃ p x s y t, a = p ++ x :: s ∧ b = p ++ y :: t ∧ x < y

theorem Separated.lt {a b : List α} (h : Separated a b) (u v : List α) : a ++ u < b ++ v := by
  obtain ⟨p, x, s, y, t, rfl, rfl, hxy⟩ := h
  rw [List.append_assoc, List.append_assoc, append_left_lt_iff]
  exact List.cons_lt_cons_iff.2 (.inl hxy)

theorem Separated.not_lt {a b : List α} (h : Separated a b) (u v : List α) : ¬ b ++ v < a ++ u := by
  obtain ⟨p, x, s, y, t, rfl, rfl, hxy⟩ := h
  rw [List.append_assoc, List.append_assoc, append_left_lt_iff, List.cons_append, List.cons_append,
    List.cons_lt_cons_iff]
  rintro (hyx | ⟨rfl, -⟩)
  · exact lt_asymm hxy hyx
  · exact lt_irrefl _ hxy

theorem separated_cons {x y : α} {a b : List α} : Separated (x :: a) (y :: b) ↔ x < y ∨ x = y ∧ Separated a b := by
  constructor
  · rintro ⟨p, z, s, w, t, ha, hb, hzw⟩
    cases p with
    | nil =>
      cases ha
      cases hb
      exact .inl hzw
    | cons c p =>
      cases ha
      cases hb
      exact .inr ⟨rfl, p, z, s, w, t, rfl, rfl, hzw⟩
  · rintro (hxy | ⟨rfl, p, z, s, w, t, rfl, rfl, hzw⟩)
    · exact ⟨[], x, a, y, b, rfl, rfl, hxy⟩
    · exact ⟨x :: p, z, s, w, t, rfl, rfl, hzw⟩

/-- Two words start one the other, or differ at an element. -/
theorem separated_or (a b : List α) : a <+: b ∨ b <+: a ∨ Separated a b ∨ Separated b a := by
  induction a generalizing b with
  | nil => exact .inl (List.nil_prefix)
  | cons x a ih =>
    cases b with
    | nil => exact .inr (.inl (List.nil_prefix))
    | cons y b =>
      rcases lt_trichotomy x y with h | rfl | h
      · exact .inr (.inr (.inl (separated_cons.2 (.inl h))))
      · rcases ih b with h | h | h | h
        · exact .inl (List.cons_prefix_cons.2 ⟨rfl, h⟩)
        · exact .inr (.inl (List.cons_prefix_cons.2 ⟨rfl, h⟩))
        · exact .inr (.inr (.inl (separated_cons.2 (.inr ⟨rfl, h⟩))))
        · exact .inr (.inr (.inr (separated_cons.2 (.inr ⟨rfl, h⟩))))
      · exact .inr (.inr (.inr (separated_cons.2 (.inl h))))

/-- Words none of which starts the other compare as they do with anything after them. -/
theorem append_lt_append_iff {a b : List α} (hab : a <+: b → a = b) (hba : b <+: a → a = b) (u : List α) :
    a ++ u < b ++ u ↔ a < b := by
  have hsame (h : a = b) : a ++ u < b ++ u ↔ a < b := by
    subst h
    exact ⟨fun hlt => absurd hlt (lt_irrefl _), fun hlt => absurd hlt (lt_irrefl _)⟩
  rcases separated_or a b with h | h | h | h
  · exact hsame (hab h)
  · exact hsame (hba h)
  · exact ⟨fun _ => by simpa using h.lt [] [], fun _ => h.lt u u⟩
  · exact ⟨fun hlt => absurd hlt (h.not_lt u u), fun hlt => absurd hlt (by simpa using h.not_lt [] [])⟩

/-- Words closed by an element smaller than all of theirs. -/
theorem append_sentinel_lt_iff {s : α} {a b : List α} (ha : ∀ x ∈ a, s < x) (hb : ∀ x ∈ b, s < x) (u v : List α) :
    a ++ s :: u < b ++ s :: v ↔ a < b ∨ a = b ∧ u < v := by
  induction a generalizing b with
  | nil =>
    cases b with
    | nil => simp
    | cons y b => simp [List.cons_lt_cons_iff, hb y List.mem_cons_self]
  | cons x a ih =>
    cases b with
    | nil =>
      have hx := ha x List.mem_cons_self
      simp [List.cons_lt_cons_iff, hx.not_gt, hx.ne']
    | cons y b =>
      have h := ih (b := b) (fun z hz => ha z (List.mem_cons_of_mem _ hz)) (fun z hz => hb z (List.mem_cons_of_mem _ hz))
      simp only [List.cons_append, List.cons_lt_cons_iff, h, List.cons.injEq]
      tauto

/-! ## Codes -/

/-- The words of two elements differ at an element, in their order. -/
structure Code (code : α → List β) : Prop where
  separated : ∀ a b, a < b → Separated (code a) (code b)
  nonempty : ∀ a, code a ≠ []

/-- A code keeps the order. -/
theorem Code.flatMap_lt_iff {code : α → List β} (C : Code code) (l l' : List α) :
    l.flatMap code < l'.flatMap code ↔ l < l' := by
  induction l generalizing l' with
  | nil =>
    cases l' with
    | nil => simp
    | cons b l' =>
      obtain ⟨y, ys, hy⟩ := List.exists_cons_of_ne_nil (C.nonempty b)
      simp [hy]
  | cons a l ih =>
    cases l' with
    | nil => simp
    | cons b l' =>
      simp only [List.flatMap_cons, List.cons_lt_cons_iff]
      rcases lt_trichotomy a b with h | rfl | h
      · simp [h, (C.separated a b h).lt]
      · simp [append_left_lt_iff, ih]
      · simp [h.not_gt, h.ne', (C.separated b a h).not_lt]

end

/-! ## Ordered lists -/

section
variable {α : Type}

/-- Two elements of a list stand in it in one of the two orders. -/
theorem pair_sublist {l : List α} {a b : α} (ha : a ∈ l) (hb : b ∈ l) (hne : a ≠ b) :
    [a, b].Sublist l ∨ [b, a].Sublist l := by
  induction l with
  | nil => cases ha
  | cons x l ih =>
    rcases List.mem_cons.1 ha with rfl | ha'
    · exact .inl ((List.singleton_sublist.2 ((List.mem_cons.1 hb).resolve_left (Ne.symm hne))).cons_cons _)
    · rcases List.mem_cons.1 hb with rfl | hb'
      · exact .inr ((List.singleton_sublist.2 ha').cons_cons _)
      · exact (ih ha' hb').imp (.cons _) (.cons _)

/-- What two ordered lists share stands in both in the same order. -/
theorem sublist_pair {R : α → α → Prop} (asymm : ∀ x y, R x y → ¬ R y x) {l l' : List α} (h : l.Pairwise R)
    (h' : l'.Pairwise R) {a b : α} (hab : [a, b].Sublist l) (ha : a ∈ l') (hb : b ∈ l') : [a, b].Sublist l' := by
  have hr : R a b := by simpa using h.sublist hab
  have hne : a ≠ b := by
    rintro rfl
    exact asymm a a hr hr
  refine (pair_sublist ha hb hne).resolve_right fun hba => asymm a b hr ?_
  simpa using h'.sublist hba

end

/-! ## UTF-8 -/

/-- The bytes of a string in UTF-8. -/
def utf8 (s : String) : List Nat := s.toList.flatMap fun c => (String.utf8EncodeChar c).map UInt8.toNat

/-- A scalar value by the digits that four bytes carry. -/
theorem four_digits (v : Nat) (h : v < 1114112) : ∃ a b c d, a < 8 ∧ b < 64 ∧ c < 64 ∧ d < 64 ∧
    v / 262144 % 8 = a ∧ v / 4096 % 64 = b ∧ v / 64 % 64 = c ∧ v % 64 = d ∧ v = 262144 * a + 4096 * b + 64 * c + d := by
  refine ⟨_, _, _, _, ?_, ?_, ?_, ?_, rfl, rfl, rfl, rfl, ?_⟩ <;> omega

/-- Of two scalar values the smaller has the smaller bytes. -/
theorem utf8_separated {a b : Char} (h : a < b) :
    Separated ((String.utf8EncodeChar a).map UInt8.toNat) ((String.utf8EncodeChar b).map UInt8.toNat) := by
  have hlt : a.val.toNat < b.val.toNat := h
  have hb : b.val.toNat < 1114112 := by
    have := b.valid
    unfold UInt32.isValidChar Nat.isValidChar at this
    omega
  unfold String.utf8EncodeChar
  generalize a.val.toNat = v at *
  generalize b.val.toNat = w at *
  simp only []
  split_ifs <;> simp only [List.map_cons, List.map_nil, UInt8.toNat_ofNat', separated_cons] <;> first
    | omega
    | obtain ⟨a, b, c, d, ha, hb, hc, hd, h₀, h₁, h₂, h₃, hv⟩ := four_digits v (by omega)
      obtain ⟨e, f, g, i, he, hf, hg, hi, h₄, h₅, h₆, h₇, hw⟩ := four_digits w (by omega)
      rw [h₀, h₁, h₂, h₃, h₄, h₅, h₆, h₇]
      clear h₀ h₁ h₂ h₃ h₄ h₅ h₆ h₇
      omega

theorem utf8_code : Code fun c : Char => (String.utf8EncodeChar c).map UInt8.toNat where
  separated _ _ h := utf8_separated h
  nonempty a := by simp [String.utf8EncodeChar_ne_nil]

theorem utf8_lt_iff (s t : String) : utf8 s < utf8 t ↔ s < t := utf8_code.flatMap_lt_iff ..

end Lexicographic

end Axton
