import Axton.Compiler.Layout
import Axton.Compiler.ReadHistory
import Axton.Core.Fixpoint

/-!
# Every well-formed declaration can be written

`parse` is onto the well-formed declarations (`parse_exact`): for each part of the grammar there are pieces of source text,
separated by blanks, that it reads back. A piece is a list of adjacent tokens: a dotted path or a number has several.
-/

namespace Axton.Compiler

open Axton.Scan Axton.Compiler.Parser

/-! ## Pieces of source text -/

/-- Adjacent words and punctuation, no two words next to each other. -/
inductive Words : List String → Prop
  | nil : Words []
  | word {w : String} {ws : List String} : w.toList ≠ [] → (∀ c ∈ w.toList, wordChar c = true) → Words ws →
      (∀ c ∈ (ws.flatMap String.toList).head?, wordChar c = false) → Words (w :: ws)
  | mark {c : Char} {ws : List String} : c ∈ punctuation → Words ws → Words (String.singleton c :: ws)

def isMark (w : String) : Bool := punctuation.any fun c => w = String.singleton c

/-- What stands between two blanks. -/
def Piece (ws : List String) : Prop := (∃ s, ws = [quote s]) ∨ (ws ≠ [] ∧ Words ws)

/-- Adjacent tokens from a column on. -/
def place (line : Nat) : Nat → List String → List Token
  | _, [] => []
  | col, w :: ws => ⟨w, line, col⟩ :: place line (col + w.length) ws

/-- The tokens of pieces, all at the start. -/
def written (pieces : List (List String)) : List Token := pieces.flatMap (place 0 0)

/-- The source text of pieces. -/
def text (pieces : List (List String)) : List Char := pieces.flatMap fun ws => ws.flatMap String.toList ++ [' ']

@[simp] theorem written_nil : written [] = [] := rfl

@[simp] theorem written_cons (ws : List String) (pieces : List (List String)) :
    written (ws :: pieces) = place 0 0 ws ++ written pieces := rfl

@[simp] theorem written_append (ps qs : List (List String)) : written (ps ++ qs) = written ps ++ written qs :=
  List.flatMap_append

@[simp] theorem place_single (line col : Nat) (w : String) : place line col [w] = [⟨w, line, col⟩] := rfl

theorem place_texts (line col : Nat) (ws : List String) : (place line col ws).map (·.text) = ws := by
  induction ws generalizing col with
  | nil => rfl
  | cons w ws ih => simp [place, ih]

theorem Words.texts {ws : List String} (h : Words ws) :
    ∀ w ∈ ws, (w.toList ≠ [] ∧ ∀ c ∈ w.toList, wordChar c = true) ∨ ∃ c ∈ punctuation,
    w = String.singleton c := by
  induction h with
  | nil => simp
  | word hne hall _ _ ih => exact List.forall_mem_cons.2 ⟨.inl ⟨hne, hall⟩, ih⟩
  | mark hc _ ih => exact List.forall_mem_cons.2 ⟨.inr ⟨_, hc, rfl⟩, ih⟩

/-- A text of word characters and marks is one piece. -/
theorem exists_words (cs : List Char) (h : ∀ c ∈ cs, wordChar c = true ∨ c ∈ punctuation) :
    ∃ ws, Words ws ∧ ws.flatMap String.toList = cs := by
  induction hn : cs.length using Nat.strongRecOn generalizing cs with
  | ind n ih =>
    cases cs with
    | nil => exact ⟨[], .nil, rfl⟩
    | cons c cs =>
      by_cases hc : wordChar c = true
      · have hsuffix : cs.dropWhile wordChar <:+ c :: cs :=
          (List.dropWhile_suffix _).trans (List.suffix_cons c cs)
        have hlen : (cs.dropWhile wordChar).length < n := by
          have hle := (List.dropWhile_suffix (l := cs) wordChar).length_le
          simp only [List.length_cons] at hn
          omega
        obtain ⟨ws, hws, hjoin⟩ := ih _ hlen (cs.dropWhile wordChar) (fun d hd => h d (hsuffix.subset hd)) rfl
        refine ⟨String.ofList (c :: cs.takeWhile wordChar) :: ws, .word (by simp) ?_ hws ?_, by simp [hjoin]⟩
        · intro d hd
          rw [String.toList_ofList, List.mem_cons] at hd
          rcases hd with rfl | hd
          · exact hc
          · exact List.all_eq_true.1 (List.all_takeWhile (p := wordChar)) d hd
        · intro d hd
          have hnot := List.head?_dropWhile_not wordChar cs
          rw [← hjoin, Option.mem_def.1 hd] at hnot
          simpa using hnot
      · obtain ⟨ws, hws, hjoin⟩ := ih cs.length (by simp at hn; omega) cs
          (fun d hd => h d (List.mem_cons_of_mem _ hd)) rfl
        have hmark := (h c List.mem_cons_self).resolve_left hc
        exact ⟨String.singleton c :: ws, .mark hmark hws, by simp [hjoin]⟩

/-! ## Reading the text back -/

theorem isDigit_range {c : Char} (h : c.isDigit = true) : 48 ≤ c.toNat ∧ c.toNat ≤ 57 := by
  obtain ⟨hlow, hhigh⟩ := Bool.and_eq_true_iff.1 h
  exact ⟨UInt32.le_iff_toNat_le.1 (of_decide_eq_true hlow), UInt32.le_iff_toNat_le.1 (of_decide_eq_true hhigh)⟩

theorem isAlpha_range {c : Char} (h : c.isAlpha = true) :
    (65 ≤ c.toNat ∧ c.toNat ≤ 90) ∨ (97 ≤ c.toNat ∧ c.toNat ≤ 122) := by
  rcases Bool.or_eq_true_iff.1 h with h | h
  · have hrange := of_decide_eq_true (p := c.val ≥ 'A'.val ∧ c.val ≤ 'Z'.val) h
    exact .inl ⟨UInt32.le_iff_toNat_le.1 hrange.1, UInt32.le_iff_toNat_le.1 hrange.2⟩
  · obtain ⟨hlow, hhigh⟩ := Bool.and_eq_true_iff.1 h
    exact .inr ⟨UInt32.le_iff_toNat_le.1 (of_decide_eq_true hlow),
      UInt32.le_iff_toNat_le.1 (of_decide_eq_true hhigh)⟩

theorem wordChar_plain {c : Char} (h : wordChar c = true) : c ≠ '\n' ∧ isWhiteSpace c = false ∧ c ≠ '/' := by
  have hrange : (48 ≤ c.toNat ∧ c.toNat ≤ 57) ∨ (65 ≤ c.toNat ∧ c.toNat ≤ 90) ∨ (97 ≤ c.toNat ∧ c.toNat ≤ 122) ∨
      c.toNat = 95 := by
    rcases Bool.or_eq_true_iff.1 h with h | h
    · rcases Bool.or_eq_true_iff.1 h with h | h
      · rcases isAlpha_range h with h | h
        · exact .inr (.inl h)
        · exact .inr (.inr (.inl h))
      · exact .inl (isDigit_range h)
    · exact .inr (.inr (.inr (by rw [of_decide_eq_true h]; rfl)))
  refine ⟨?_, ?_, ?_⟩
  · rintro rfl
    revert hrange
    decide
  · simp only [isWhiteSpace, Bool.or_eq_false_iff, Bool.and_eq_false_iff, decide_eq_false_iff_not,
      beq_eq_false_iff_ne]
    omega
  · rintro rfl
    revert hrange
    decide

theorem mark_plain {c : Char} (h : c ∈ punctuation) :
    c ≠ '\n' ∧ isWhiteSpace c = false ∧ c ≠ '/' ∧ wordChar c = false ∧ c ≠ '"' := by
  have table : (punctuation.all fun c =>
      c ≠ '\n' && !isWhiteSpace c && c ≠ '/' && !wordChar c && c ≠ '"') = true := by
    decide
  simpa [and_assoc] using List.all_eq_true.1 table c h

/-- A list of words and marks before a blank is read token by token. -/
theorem lexFrom_words {ws : List String} (h : Words ws) (cs : List Char) {fuel line col : Nat}
    (hfuel : (ws.flatMap String.toList ++ ' ' :: cs).length ≤ fuel) : ∃ n, cs.length ≤ n ∧
      lexFrom fuel (ws.flatMap String.toList ++ ' ' :: cs) line col =
        (place line col ws ++ ·) <$> lexFrom n cs line (col + (ws.flatMap String.toList).length + 1) := by
  induction h generalizing fuel col with
  | nil =>
    cases fuel with
    | zero => simp at hfuel
    | succ fuel =>
      refine ⟨fuel, by simpa using hfuel, ?_⟩
      show lexFrom (fuel + 1) (' ' :: cs) line col = _
      rw [lexFrom, if_neg (by decide), if_pos (by decide)]
      simp [place]
  | @word w ws hne hall _ hnext ih =>
    cases hw : w.toList with
    | nil => exact absurd hw hne
    | cons c ds =>
      have hall' : ∀ d ∈ c :: ds, wordChar d = true := hw ▸ hall
      have hds : ∀ d ∈ ds, wordChar d = true := fun d hd => hall' d (List.mem_cons_of_mem _ hd)
      obtain ⟨hnl, hspace, hslash⟩ := wordChar_plain (hall' c List.mem_cons_self)
      -- the word ends before the next token
      have hends : ∀ d ∈ (ws.flatMap String.toList ++ ' ' :: cs).head?, wordChar d = false := by
        intro d hd
        rw [List.head?_append] at hd
        cases hhead : (ws.flatMap String.toList).head? with
        | none =>
          rw [hhead] at hd
          cases hd
          decide
        | some e =>
          rw [hhead] at hd
          cases hd
          exact hnext _ hhead
      have htake : (ws.flatMap String.toList ++ ' ' :: cs).takeWhile wordChar = [] ∧
          (ws.flatMap String.toList ++ ' ' :: cs).dropWhile wordChar = ws.flatMap String.toList ++ ' ' :: cs := by
        cases hrest : ws.flatMap String.toList ++ ' ' :: cs with
        | nil => exact ⟨rfl, rfl⟩
        | cons d es =>
          have hd := hends d (by rw [hrest]; rfl)
          simp [hd]
      cases fuel with
      | zero => simp [hw] at hfuel
      | succ fuel =>
        have hlen : (ws.flatMap String.toList ++ ' ' :: cs).length ≤ fuel := by
          simp only [List.flatMap_cons, hw, List.length_append, List.length_cons] at hfuel ⊢
          omega
        obtain ⟨n, hn, hrest⟩ := @ih fuel (col + (c :: ds).length) hlen
        refine ⟨n, hn, ?_⟩
        have hword : String.ofList (c :: ds) = w := by rw [← hw, String.ofList_toList]
        have hlength : w.length = (c :: ds).length := by rw [← String.length_toList, hw]
        rw [List.flatMap_cons, hw, List.append_assoc, List.cons_append, lexFrom, if_neg hnl,
          if_neg (by simp [hspace]),
          if_neg (by simp [hslash]), if_pos (hall' c List.mem_cons_self), List.takeWhile_append_of_pos hds,
          List.dropWhile_append_of_pos hds, htake.1, htake.2, List.append_nil]
        dsimp only
        rw [hword, hrest, place, hlength]
        have hcol : col + (c :: ds).length + (ws.flatMap String.toList).length + 1 =
            col + (c :: ds ++ ws.flatMap String.toList).length + 1 := by
          rw [List.length_append]
          omega
        rw [hcol]
        cases lexFrom n cs line (col + (c :: ds ++ ws.flatMap String.toList).length + 1) <;> rfl
  | @mark c ws hc _ ih =>
    obtain ⟨hnl, hspace, hslash, hword, hquote⟩ := mark_plain hc
    cases fuel with
    | zero => simp at hfuel
    | succ fuel =>
      have hlen : (ws.flatMap String.toList ++ ' ' :: cs).length ≤ fuel := by simpa using hfuel
      obtain ⟨n, hn, hrest⟩ := @ih fuel (col + 1) hlen
      refine ⟨n, hn, ?_⟩
      have hsingle : (String.singleton c).toList = [c] := by simp
      rw [List.flatMap_cons, hsingle, List.cons_append, List.nil_append, List.cons_append, lexFrom, if_neg hnl,
        if_neg (by simp [hspace]), if_neg (by simp [hslash]), if_neg (by simp [hword]), if_neg hquote,
        if_pos hc, hrest, place]
      have hlength : (String.singleton c).length = 1 := by rw [← String.length_toList, hsingle]; rfl
      simp only [List.length_cons, hlength]
      rw [show col + 1 + (List.flatMap String.toList ws).length + 1 = col +
        ((List.flatMap String.toList ws).length + 1) + 1 by
        omega]
      cases lexFrom n cs line (col + ((List.flatMap String.toList ws).length + 1) + 1) <;> rfl

theorem literal_plain {ds : List Char} (h : ∀ d ∈ ds, d ≠ '"' ∧ d ≠ '\\') (cs : List Char) :
    literal (ds ++ cs) = (literal cs).map fun r => (ds ++ r.1, r.2) := by
  induction ds with
  | nil =>
    rw [List.nil_append]
    cases literal cs <;> rfl
  | cons d ds ih =>
    obtain ⟨⟨hquote, hslash⟩, hds⟩ := List.forall_mem_cons.1 h
    rw [List.cons_append, literal.eq_def]
    split
    · simp_all
    · simp_all
    · simp_all
    · simp_all
    · rename_i heq
      cases heq
      rw [ih hds, Option.map_map]
      rfl

/-- A backslash, the character it takes along, and plain ones. -/
def isEscape : List Char → Bool
  | '\\' :: _ :: es => es.all fun d => d ≠ '"' && d ≠ '\\'
  | _ => false

theorem isEscape_shape {cs : List Char} (h : isEscape cs = true) :
    ∃ e es, cs = '\\' :: e :: es ∧ ∀ d ∈ es, d ≠ '"' ∧ d ≠ '\\' := by
  unfold isEscape at h
  split at h
  · exact ⟨_, _, rfl, fun d hd => by simpa using List.all_eq_true.1 h d hd⟩
  · cases h

theorem escapeChar_shape (c : Char) : (escapeChar c = [c] ∧ c ≠ '"' ∧ c ≠ '\\') ∨
    ∃ e es, escapeChar c = '\\' :: e :: es ∧ ∀ d ∈ es, d ≠ '"' ∧ d ≠ '\\' := by
  have table : (escapedChars.all fun c => isEscape (escapeChar c)) = true := by decide +kernel
  rcases escapeChar_cases c with hc | hc
  · exact .inr (isEscape_shape (List.all_eq_true.1 table c hc))
  · exact .inl hc

/-- A string literal ends at its closing quote. -/
theorem literal_escaped (ds cs : List Char) :
    literal (ds.flatMap escapeChar ++ '"' :: cs) = some (ds.flatMap escapeChar ++ ['"'], cs) := by
  induction ds with
  | nil => rfl
  | cons d ds ih =>
    rw [List.flatMap_cons, List.append_assoc]
    rcases escapeChar_shape d with ⟨hd, hplain⟩ | ⟨e, es, hd, hplain⟩
    · rw [hd, literal_plain (by simpa using hplain), ih]
      simp
    · rw [hd, List.cons_append, List.cons_append, literal, literal_plain hplain, ih]
      simp

/-- Every piece before a blank is read token by token. -/
theorem lexFrom_piece {ws : List String} (h : Piece ws) (cs : List Char) {fuel line col : Nat}
    (hfuel : (ws.flatMap String.toList ++ ' ' :: cs).length ≤ fuel) : ∃ n, cs.length ≤ n ∧
      lexFrom fuel (ws.flatMap String.toList ++ ' ' :: cs) line col =
        (place line col ws ++ ·) <$> lexFrom n cs line (col + (ws.flatMap String.toList).length + 1) := by
  rcases h with ⟨s, rfl⟩ | ⟨-, h⟩
  · simp only [List.flatMap_cons, List.flatMap_nil, List.append_nil, quote_toList, List.cons_append,
      List.append_assoc,
      List.nil_append] at hfuel ⊢
    cases fuel with
    | zero => simp at hfuel
    | succ fuel =>
      cases fuel with
      | zero => simp at hfuel
      | succ fuel =>
        refine ⟨fuel, by simp at hfuel; omega, ?_⟩
        rw [lexFrom, if_neg (by decide), if_neg (by decide), if_neg (by simp), if_neg (by decide),
          if_pos rfl, literal_escaped]
        dsimp only
        rw [lexFrom, if_neg (by decide), if_pos (by decide)]
        have hquote : String.ofList ('"' :: (s.toList.flatMap escapeChar ++ ['"'])) = quote s := rfl
        rw [hquote]
        simp only [List.length_cons, List.length_append, List.length_nil, place]
        cases lexFrom fuel cs line (col + ((s.toList.flatMap escapeChar).length + 1 + 1) + 1) <;> rfl
  · exact lexFrom_words h cs hfuel

/-- The tokens of pieces as they stand in the text. -/
def laid (line : Nat) : Nat → List (List String) → List Token
  | col, [] => [⟨eof, line, col⟩]
  | col, ws :: pieces => place line col ws ++ laid line (col + (ws.flatMap String.toList).length + 1) pieces

theorem lexFrom_text {pieces : List (List String)} (h : ∀ ws ∈ pieces, Piece ws) {fuel line col : Nat}
    (hfuel : (text pieces).length ≤ fuel) : lexFrom fuel (text pieces) line col = .ok (laid line col pieces) := by
  induction pieces generalizing fuel col with
  | nil => cases fuel <;> rfl
  | cons ws pieces ih =>
    obtain ⟨hws, hpieces⟩ := List.forall_mem_cons.1 h
    have hsplit : text (ws :: pieces) = ws.flatMap String.toList ++ ' ' :: text pieces := by simp [text]
    rw [hsplit] at hfuel ⊢
    obtain ⟨n, hn, hrest⟩ := @lexFrom_piece ws hws (text pieces) fuel line col hfuel
    rw [hrest, ih hpieces hn]
    rfl

theorem sameGaps_cons {t u : Token} {ts us : List Token} (htext : t.text = u.text)
    (hcont : ∀ t' ∈ ts.head?, ∀ u' ∈ us.head?, continues t t' = continues u u') (h : sameGaps ts us = true) :
    sameGaps (t :: ts) (u :: us) = true := by
  match ts, us, h with
  | t' :: ts, u' :: us, h =>
    simp only [sameGaps, Bool.and_eq_true, decide_eq_true_eq, beq_iff_eq]
    exact ⟨⟨htext, hcont t' rfl u' rfl⟩, h⟩
  | [], [], _ => simpa [sameGaps] using htext
  | _ :: ts, [], h => cases ts <;> simp [sameGaps] at h

/-- Nothing at another column follows directly. -/
theorem continues_apart {t u : Token} (h : u.col ≠ t.col + t.text.length) : continues t u = false := by
  simp [continues, h]

theorem Piece.nonempty {ws : List String} (h : Piece ws) : ws ≠ [] ∧ ∀ w ∈ ws, 0 < w.length := by
  rcases h with ⟨s, rfl⟩ | ⟨hne, h⟩
  · refine ⟨by simp, fun w hw => ?_⟩
    rw [List.mem_singleton.1 hw, ← String.length_toList, quote_toList]
    simp
  · refine ⟨hne, fun w hw => ?_⟩
    rw [← String.length_toList]
    rcases h.texts w hw with ⟨hne, -⟩ | ⟨c, -, rfl⟩
    · exact List.length_pos_iff.2 hne
    · simp

theorem sameGaps_place {ws : List String} (hws : ∀ w ∈ ws, 0 < w.length) {ts us : List Token} {c d line : Nat}
    (hts : ∀ t ∈ ts.head?, t.col = 0) (hus : ∀ u ∈ us.head?, u.col = d + (ws.flatMap String.toList).length + 1)
    (h : sameGaps ts us = true) : sameGaps (place 0 c ws ++ ts) (place line d ws ++ us) = true := by
  induction ws generalizing c d with
  | nil => exact h
  | cons w ws ih =>
    obtain ⟨hw, hws⟩ := List.forall_mem_cons.1 hws
    have hlength : (w :: ws).flatMap String.toList = w.toList ++ ws.flatMap String.toList := List.flatMap_cons
    refine sameGaps_cons rfl ?_ (ih hws fun u hu => ?_)
    · cases ws with
      | nil =>
        intro t ht u hu
        have htcol : t.col ≠ c + w.length := by
          rw [hts t ht]
          omega
        have hucol : u.col ≠ d + w.length := by
          rw [hus u hu, hlength]
          simp [String.length_toList]
        rw [continues_apart htcol, continues_apart hucol]
      | cons v ws =>
        rintro t ht u hu
        cases ht
        cases hu
        simp [continues]
    · rw [hus u hu, hlength, List.length_append, String.length_toList]
      omega

theorem laid_head (line col : Nat) {pieces : List (List String)} (h : ∀ ws ∈ pieces, Piece ws) :
    ∀ u ∈ (laid line col pieces).head?, u.col = col := by
  cases pieces with
  | nil =>
    intro u hu
    cases hu
    rfl
  | cons ws pieces =>
    cases ws with
    | nil => exact absurd rfl (h [] List.mem_cons_self).nonempty.1
    | cons w ws =>
      intro u hu
      cases hu
      rfl

theorem sameGaps_laid {pieces : List (List String)} (h : ∀ ws ∈ pieces, Piece ws) (line col : Nat) :
    sameGaps (written pieces ++ [⟨eof, 0, 0⟩]) (laid line col pieces) = true := by
  induction pieces generalizing col with
  | nil => rfl
  | cons ws pieces ih =>
    obtain ⟨hws, hpieces⟩ := List.forall_mem_cons.1 h
    rw [written_cons, List.append_assoc]
    refine sameGaps_place hws.nonempty.2 ?_ (laid_head _ _ hpieces) (ih hpieces _)
    cases pieces with
    | nil =>
      intro t ht
      cases ht
      rfl
    | cons vs pieces =>
      cases vs with
      | nil => exact absurd rfl (hpieces [] List.mem_cons_self).nonempty.1
      | cons v vs =>
        intro t ht
        cases ht
        rfl

theorem Piece.lexed {ws : List String} (h : Piece ws) : ∀ w ∈ ws, Lexed w := by
  rcases h with ⟨s, rfl⟩ | ⟨-, h⟩
  · intro w hw
    rw [List.mem_singleton.1 hw]
    exact .inr (.inl (by simp [quoted, quote_toList]))
  · exact fun w hw => .inr (.inr (h.texts w hw))

theorem written_lexes {pieces : List (List String)} (h : ∀ ws ∈ pieces, Piece ws) :
    Lexes (written pieces ++ [⟨eof, 0, 0⟩]) where
  lexed t ht := by
    rcases List.mem_append.1 ht with ht | ht
    · obtain ⟨ws, hws, ht⟩ := List.mem_flatMap.1 ht
      refine (h ws hws).lexed t.text ?_
      rw [← place_texts 0 0 ws]
      exact List.mem_map_of_mem ht
    · rw [List.mem_singleton.1 ht]
      exact .inl rfl
  last := ⟨_, _, rfl, rfl⟩

/-- **What the pieces read as, the source declares.** -/
theorem parse_text {finite : String → Bool} {pieces : List (List String)}
    (h : ∀ ws ∈ pieces, Piece ws) {d : Declarations}
    {rest : List Token} (hd : (declarations finite).run (written pieces ++ [⟨eof, 0, 0⟩]) = .ok (d, rest)) :
    ∃ e, parse finite (String.ofList (text pieces)) = .ok e ∧ e.unplaced = d.unplaced := by
  have hlex : lex (String.ofList (text pieces)) = .ok (laid 1 1 pieces) := by
    unfold lex
    rw [String.toList_ofList]
    exact lexFrom_text h (Nat.le_refl _)
  have halign : Aligned (written pieces ++ [⟨eof, 0, 0⟩]) (laid 1 1 pieces) :=
    { toSameTokens := .of_gaps (sameGaps_laid h 1 1), lexes := written_lexes h }
  have hparse := parse_aligned halign finite
  unfold parse
  rw [hlex]
  rw [hd] at hparse
  cases he : (declarations finite).run (laid 1 1 pieces) with
  | error f =>
    rw [he] at hparse
    exact hparse.elim
  | ok r =>
    rw [he] at hparse
    refine ⟨r.1, ?_, hparse.1.unplaced.symm⟩
    show (·.1) <$> (declarations finite).run (laid 1 1 pieces) = _
    rw [he]
    rfl

/-! ### Tokens -/

theorem decodeString_quote (s : String) : decodeString (quote s) = some s := by
  have hread := readString_escaped s.toList [] ((s.toList.flatMap escapeChar ++ ['"']).length + 1) (by
    have hlen := length_quote s
    rw [quote_toList] at hlen
    simp only [List.length_cons] at hlen ⊢
    omega)
  unfold decodeString
  rw [quote_toList]
  simp only [hread, String.ofList_toList]

theorem quote_ne {s w : String} (hw : quoted w = false) : quote s ≠ w := by
  rintro rfl
  simp [quoted, quote_toList] at hw

theorem quoted_quote (s : String) : quoted (quote s) = true := by simp [quoted, quote_toList]

theorem isIdent_head {s : String} (h : isIdent s = true) :
    ∃ c cs, s.toList = c :: cs ∧ (c.isAlpha = true ∨ c = '_') ∧
    (∀ d ∈ c :: cs, wordChar d = true) := by
  unfold isIdent at h
  split at h
  · rename_i c cs hcs
    simp only [Bool.and_eq_true, Bool.or_eq_true, decide_eq_true_eq, List.all_eq_true] at h
    refine ⟨c, cs, hcs, h.1, List.forall_mem_cons.2 ⟨?_, h.2⟩⟩
    rcases h.1 with hc | rfl
    · simp [wordChar, Char.isAlphanum, hc]
    · rfl
  · cases h

theorem isIdent_words {s : String} (h : isIdent s = true) : Words [s] := by
  obtain ⟨c, cs, hs, -, hall⟩ := isIdent_head h
  exact .word (by simp [hs]) (hs ▸ hall) .nil (by simp)

theorem isIdent_piece {s : String} (h : isIdent s = true) : Piece [s] := .inr ⟨by simp, isIdent_words h⟩

theorem mark_piece {c : Char} (h : c ∈ punctuation) : Piece [String.singleton c] := .inr ⟨by simp, .mark h .nil⟩

theorem ne_of_isIdent {s t : String} (h : isIdent s = true) (ht : isIdent t = false) : s ≠ t := by
  rintro rfl
  rw [h] at ht
  cases ht

theorem isIdent_unquoted {s : String} (h : isIdent s = true) : quoted s = false := by
  obtain ⟨c, cs, hs, hc, -⟩ := isIdent_head h
  have hne : c ≠ '"' := by
    rintro rfl
    revert hc
    decide
  simp [quoted, hs, hne]

/-! ## Reading pieces -/

section

variable {α β σ : Type} {F G : List Token → Prop} {P : String → Prop} {ps qs : List (List String)}
  {stop : String}

/-- The pieces spell `x` for the reader, as long as `F` holds of what follows. -/
structure Spells (F : List Token → Prop) (p : Parser α) (x : α) (pieces : List (List String)) : Prop where
  proper : ∀ ws ∈ pieces, Piece ws
  reads : Reads F p x (written pieces)

def Any (_ : List Token) : Prop := True

/-- What the next token is. -/
def Next (P : String → Prop) (rest : List Token) : Prop := ∃ t ts, rest = t :: ts ∧ P t.text

/-- The text of the first token. -/
def Begins (P : String → Prop) (pieces : List (List String)) : Prop := ∃ w ws qs, pieces = (w :: ws) :: qs ∧ P w

theorem Next.imp {Q : String → Prop} {rest : List Token} (h : Next P rest) (hPQ : ∀ s, P s → Q s) :
    Next Q rest := by
  obtain ⟨t, ts, rfl, ht⟩ := h
  exact ⟨t, ts, rfl, hPQ _ ht⟩

theorem begins_cons {w : String} {ws : List String} (h : P w) : Begins P ((w :: ws) :: qs) :=
  ⟨w, ws, qs, rfl, h⟩

theorem begins_any {w : String} {ws : List String} : Begins (fun _ => True) ((w :: ws) :: qs) :=
  begins_cons trivial

theorem Begins.imp {Q : String → Prop} (h : Begins P ps) (hPQ : ∀ s, P s → Q s) : Begins Q ps := by
  obtain ⟨w, ws, qs, rfl, hw⟩ := h
  exact ⟨w, ws, qs, rfl, hPQ _ hw⟩

theorem Begins.append (h : Begins P ps) (qs : List (List String)) : Begins P (ps ++ qs) := by
  obtain ⟨w, ws, ps, rfl, hw⟩ := h
  exact ⟨w, ws, ps ++ qs, rfl, hw⟩

theorem Begins.next (h : Begins P ps) (rest : List Token) : Next P (written ps ++ rest) := by
  obtain ⟨w, ws, ps, rfl, hw⟩ := h
  exact ⟨_, _, rfl, hw⟩

/-- The text of the first token, if there is any. -/
def Leads (P : String → Prop) (pieces : List (List String)) : Prop := pieces = [] ∨ Begins P pieces

theorem Leads.next {Q : String → Prop} (h : Leads P ps) (hPQ : ∀ w, P w → Q w) {rest : List Token}
    (hrest : Next Q rest) :
    Next Q (written ps ++ rest) := by
  rcases h with rfl | h
  · exact hrest
  · exact (h.imp hPQ).next rest

theorem Leads.begins {Q : String → Prop} (h : Leads P ps) (hPQ : ∀ w, P w → Q w) (hqs : Begins Q qs) :
    Begins Q (ps ++ qs) := by
  rcases h with rfl | h
  · exact hqs
  · exact (h.imp hPQ).append qs

theorem Leads.append {Q : String → Prop} (h : Leads P ps) (hPQ : ∀ w, P w → Q w) (hqs : Leads Q qs) :
    Leads Q (ps ++ qs) := by
  rcases h with rfl | h
  · exact hqs
  · exact .inr ((h.imp hPQ).append qs)

theorem Begins.written_ne_nil (h : Begins P ps) : written ps ≠ [] := by
  obtain ⟨w, ws, ps, rfl, -⟩ := h
  simp [place]

namespace Spells

variable {p : Parser α} {f : α → Parser β} {x : α} {y : β}

theorem weaken (h : Spells F p x ps) (hF : ∀ rest, G rest → F rest) : Spells G p x ps :=
  ⟨h.proper, h.reads.weaken hF⟩

theorem pure : Spells F (Pure.pure x : Parser α) x [] := ⟨by simp, Reads.pure⟩

theorem bind (h : Spells F p x ps) (hf : Spells G (f x) y qs) (hF : ∀ rest, G rest → F (written qs ++ rest)) :
    Spells G (p >>= f) y (ps ++ qs) where
  proper ws hws := (List.mem_append.1 hws).elim (h.proper ws) (hf.proper ws)
  reads := by
    rw [written_append]
    exact h.reads.bind hf.reads hF

/-- Where the first reader does not depend on what follows it. -/
theorem andThen (h : Spells Any p x ps) (hf : Spells G (f x) y qs) : Spells G (p >>= f) y (ps ++ qs) :=
  h.bind hf fun _ _ => trivial

/-- Where the first reader depends on the token that follows it. -/
theorem before (h : Spells (Next P) p x ps) (hf : Spells G (f x) y qs) (hq : Begins P qs) :
    Spells G (p >>= f) y (ps ++ qs) :=
  h.bind hf fun rest _ => hq.next rest

/-- Where the second one takes nothing. -/
theorem last (h : Spells F p x ps) (hf : Spells G (f x) y []) (hF : ∀ rest, G rest → F rest) :
    Spells G (p >>= f) y ps := by
  have hbind := h.bind hf hF
  rwa [List.append_nil] at hbind

/-- Where the first result is given. -/
theorem given {a : α} (h : Spells F (f a) y ps) : Spells F ((Pure.pure a : Parser α) >>= f) y ps :=
  ⟨h.proper, fun rest hrest => (run_bind_ok (run_pure a _)).trans (h.reads rest hrest)⟩

/-- Where the result alone is left. -/
theorem result {g : α → β} (h : Spells Any p x ps) : Spells F (p >>= fun a => Pure.pure (g a)) (g x) ps :=
  h.last .pure fun _ _ => trivial

/-- Where the first reader takes nothing. -/
theorem lookahead (h : Spells (Next P) p x []) (hf : Spells G (f x) y qs) (hq : Begins P qs) :
    Spells G (p >>= f) y qs :=
  h.before hf hq

theorem silent (h : Spells Any p x []) (hf : Spells G (f x) y qs) : Spells G (p >>= f) y qs := h.andThen hf

theorem map {γ : Type} (g : α → γ) (h : Spells F p x ps) : Spells F (g <$> p) (g x) ps := by
  rw [map_eq_pure_bind]
  exact h.last (f := fun a => (Pure.pure (g a) : Parser γ)) .pure fun _ h => h

theorem yes {c : Prop} [Decidable c] {p q : Parser α} (hc : c) (h : Spells F p x ps) :
    Spells F (if c then p else q) x ps := by
  rwa [if_pos hc]

theorem no {c : Prop} [Decidable c] {p q : Parser α} (hc : ¬ c) (h : Spells F q x ps) :
    Spells F (if c then p else q) x ps := by
  rwa [if_neg hc]

theorem peek {f : String → Parser α} (hP : Begins P ps) (h : ∀ w, P w → Spells F (f w) x ps) :
    Spells F (Parser.peek >>= f) x ps := by
  obtain ⟨w, ws, qs, rfl, hw⟩ := hP
  exact ⟨(h w hw).proper, fun rest hrest => (h w hw).reads rest hrest⟩

theorem peekNext {f : String → Parser α} (h : ∀ w, P w → Spells (Next P) (f w) x []) :
    Spells (Next P) (Parser.peek >>= f) x [] := by
  refine ⟨by simp, fun rest hrest => ?_⟩
  obtain ⟨t, ts, rfl, ht⟩ := id hrest
  exact (h _ ht).reads _ hrest

/-- All pieces are at the start. -/
theorem pos {f : Pos → Parser α} (hP : Begins P ps) (h : Spells F (f {}) x ps) :
    Spells F (Parser.pos >>= f) x ps := by
  obtain ⟨w, ws, qs, rfl, hw⟩ := hP
  exact ⟨h.proper, fun rest hrest => h.reads rest hrest⟩

theorem take {w : String} (hw : Piece [w]) (hne : w ≠ eof) : Spells Any Parser.take w [[w]] where
  proper := by simpa using hw
  reads rest _ := by
    show Parser.take.run (⟨w, 0, 0⟩ :: rest) = _
    simp [Parser.take, Parser.peek, token, hne]

theorem eat {w : String} (hw : Piece [w]) (hne : w ≠ eof) : Spells Any (Parser.eat w) true [[w]] where
  proper := by simpa using hw
  reads rest _ := by
    show (Parser.eat w).run (⟨w, 0, 0⟩ :: rest) = _
    simp [Parser.eat, Parser.take, Parser.peek, token, hne]

theorem eatNot {w : String} : Spells (Next (· ≠ w)) (Parser.eat w) false [] where
  proper := by simp
  reads rest hrest := by
    obtain ⟨t, ts, rfl, ht⟩ := hrest
    simp [Parser.eat, Parser.peek, token, ht]

/-- `eat` where something else is written. -/
theorem skip {w : String} {f : Bool → Parser α} (hP : Begins (· ≠ w) ps) (h : Spells F (f false) x ps) :
    Spells F (Parser.eat w >>= f) x ps := by
  simpa using eatNot.before h hP

theorem ident {w : String} (hw : isIdent w = true) : Spells Any Parser.ident w [[w]] :=
  (take (isIdent_piece hw) (ne_of_isIdent hw (by decide))).last (yes hw .pure) fun _ h => h

theorem string (s : String) : Spells Any Parser.string s [[quote s]] := by
  have hne : quote s ≠ eof := quote_ne (by decide)
  refine ⟨(take (.inl ⟨s, rfl⟩) hne).proper, fun rest _ => ?_⟩
  unfold Parser.string
  rw [run_bind_ok ((take (.inl ⟨s, rfl⟩) hne).reads rest trivial)]
  simp [decodeString_quote]

theorem mark_eat {w : String} (hw : isMark w = true) : Spells Any (Parser.eat w) true [[w]] := by
  obtain ⟨c, hc, hword⟩ := List.any_eq_true.1 hw
  obtain rfl := of_decide_eq_true hword
  refine eat (mark_piece hc) fun heof => ?_
  have hlen := congrArg (fun s => s.toList.length) heof
  simp [eof] at hlen

theorem mark {w : String} (hw : isMark w = true) : Spells Any (Parser.need w) () [[w]] :=
  (mark_eat hw).last (yes rfl .pure) fun _ h => h

/-- The name of a directive. -/
theorem labelled {attr : String} (hattr : isIdent attr = true) {f : String → Parser α}
    (h : Spells F (f attr) x ps) :
    Spells F (Parser.need "@" >>= fun _ => Parser.ident >>= f) x ([["@"]] ++ ([[attr]] ++ ps)) :=
  (mark (by decide)).andThen ((ident hattr).andThen h)

/-- A comma is written after every item, also the last. -/
theorem comma (hstop : stop ≠ ",") : Spells Any (Parser.comma stop) () [[","]] :=
  peek (P := (· = ",")) (begins_cons rfl) fun _ hw =>
    yes (hw ▸ hstop.symm) (mark (by decide))

/-- Where the reader looks ahead at all tokens. -/
theorem look {f : List Token → Parser α} (hproper : ∀ ws ∈ ps, Piece ws)
    (h : ∀ rest, F rest → Spells F (f (written ps ++ rest)) x ps) : Spells F (get >>= f) x ps :=
  ⟨hproper, fun rest hrest => (run_bind_ok (run_get _)).trans ((h rest hrest).reads rest hrest)⟩

/-- A loop ends at what closes it. -/
theorem close (hpiece : Piece [stop]) (hne : stop ≠ eof) {step : σ → Parser σ} {s : σ} :
    Spells Any (upTo stop step s) s [[stop]] where
  proper := by simpa using hpiece
  reads rest _ := by
    refine loop_stop ?_
    rw [run_bind_ok ((eat hpiece hne).reads rest trivial)]
    rfl

/-- An item of a loop. -/
theorem item {step : σ → Parser σ} {s s' t : σ} (hP : Begins (· ≠ stop) ps) (h : Spells F (step s) s' ps)
    (hloop : Spells G (upTo stop step s') t qs) (hF : ∀ rest, G rest → F (written qs ++ rest)) :
    Spells G (upTo stop step s) t (ps ++ qs) where
  proper ws hws := (List.mem_append.1 hws).elim (h.proper ws) (hloop.proper ws)
  reads := by
    rw [written_append]
    refine Reads.round (fun rest => ?_) hP.written_ne_nil h.reads hloop.reads hF
    have heat := eatNot.reads _ (hP.next rest)
    rw [written_nil, List.nil_append] at heat
    rw [run_bind_ok heat]
    rfl

end Spells

end

/-! ### Paths -/

theorem IsPath.parts {s : String} (h : IsPath s) : ∃ (p : String) (qs : List String), isIdent p = true ∧
    (∀ q ∈ qs, isIdent q = true) ∧ s = qs.foldl (fun name q => name ++ "." ++ q) p := by
  induction h with
  | ident h => exact ⟨_, [], h, by simp, rfl⟩
  | @dot s t _ ht ih =>
    obtain ⟨p, qs, hp, hqs, rfl⟩ := ih
    refine ⟨p, qs ++ [t], hp, fun q hq => ?_, by simp⟩
    rcases List.mem_append.1 hq with hq | hq
    · exact hqs q hq
    · exact List.mem_singleton.1 hq ▸ ht

def dots (qs : List String) : List (List String) := qs.flatMap fun q => [["."], [q]]

theorem spells_dots {qs : List String} (hqs : ∀ q ∈ qs, isIdent q = true) (name : String) :
    Spells (Next (· ≠ ".")) (Scan.loop (eat ".") (fun name => return name ++ "." ++ (← ident)) name)
      (qs.foldl (fun name q => name ++ "." ++ q) name) (dots qs) := by
  induction qs generalizing name with
  | nil => exact ⟨by simp [dots], fun rest hrest => loop_stop (Spells.eatNot.reads rest hrest)⟩
  | cons q qs ih =>
    obtain ⟨hq, hqs⟩ := List.forall_mem_cons.1 hqs
    have hdot : Spells Any (eat ".") true [["."]] := Spells.mark_eat (by decide)
    have hname : Spells Any (ident >>= fun q => Pure.pure (name ++ "." ++ q)) (name ++ "." ++ q) [[q]] :=
      (Spells.ident hq).last .pure fun _ h => h
    have hrest := ih hqs (name ++ "." ++ q)
    refine ⟨fun ws hws => ?_, fun rest hF => ?_⟩
    · simp only [dots, List.flatMap_cons, List.cons_append, List.nil_append, List.mem_cons] at hws
      rcases hws with rfl | rfl | hws
      · exact mark_piece (c := '.') (by decide)
      · exact isIdent_piece hq
      · exact hrest.proper ws hws
    · refine loop_round (hdot.reads _ trivial) (hname.reads _ trivial) ?_ (hrest.reads rest hF)
      show (written (dots qs) ++ rest).length < (⟨".", 0, 0⟩ :: ⟨q, 0, 0⟩ :: (written (dots qs) ++ rest)).length
      simp only [List.length_cons]
      omega

theorem spells_path {p : String} {qs : List String} (hp : isIdent p = true) (hqs : ∀ q ∈ qs, isIdent q = true) :
    Spells (Next (· ≠ ".")) path (qs.foldl (fun name q => name ++ "." ++ q) p) ([p] :: dots qs) :=
  (Spells.ident hp).andThen (spells_dots hqs p)

/-- What decides whether a path is a name. -/
theorem named_dots (qs : List String) {w : String} (hw : w ≠ ".") (ws : List String) :
    named ((dots qs).flatten ++ w :: ws) = decide (w = ":") := by
  induction qs with
  | nil => cases ws <;> simp [dots, named, hw]
  | cons q qs ih =>
    simp only [dots, List.flatMap_cons, List.cons_append, List.nil_append, List.flatten_cons, named] at ih ⊢
    exact ih

theorem written_texts (pieces : List (List String)) : (written pieces).map (·.text) = pieces.flatten := by
  induction pieces with
  | nil => rfl
  | cons ws pieces ih => simp [place_texts, ih]

/-! ### Expressions -/

/-- How an expression begins. -/
def Opens (w : String) : Prop := w = "[" ∨ (∃ s, w = quote s) ∨ isIdent w = true

theorem Opens.ne {w : String} (h : Opens w) {c : Char} (hc : c ∈ punctuation) (hne : c ≠ '[') :
    w ≠ String.singleton c := by
  rintro rfl
  rcases h with h | ⟨s, hs⟩ | h
  · refine hne ?_
    have hlist := congrArg String.toList h
    simpa using hlist
  · have hlist := congrArg (fun s => s.toList.head?) hs
    rw [quote_toList] at hlist
    exact (mark_plain hc).2.2.2.2 (by simpa using hlist)
  · obtain ⟨d, ds, hd, -, hall⟩ := isIdent_head h
    have hword := (mark_plain hc).2.2.2.1
    have hcd : c = d := by simpa using congrArg List.head? hd
    rw [hcd, hall d List.mem_cons_self] at hword
    cases hword

theorem Opens.not_number {w : String} (h : Opens w) : startsNumber w = false := by
  have hne := h.ne (c := '-') (by decide) (by decide)
  rcases h with rfl | ⟨s, rfl⟩ | h
  · decide
  · simp [startsNumber, quote_toList, Char.isDigit] at hne ⊢
    exact hne
  · obtain ⟨c, cs, hc, hfirst, -⟩ := isIdent_head h
    have hdigit : c.isDigit = false := by
      rcases hfirst with hc | rfl
      · by_contra hdigit
        have hrange := isDigit_range (by simpa using hdigit)
        rcases isAlpha_range hc with halpha | halpha <;> omega
      · decide
    simp only [startsNumber, hc, List.head?_cons, Option.any_some, hdigit, Bool.or_false,
      decide_eq_false_iff_not]
    exact hne

/-- Pieces of an expression with as many levels as there are pieces; as an argument it is not named. -/
structure Written (v : Json) (pieces : List (List String)) : Prop where
  starts : Begins Opens pieces
  spells : ∀ n, pieces.length ≤ n → Spells (Next (· = ",")) (expressionOf n) v pieces
  positional : ∀ rest, Next (· = ",") rest → named (((written pieces ++ rest).drop 1).map (·.text)) = false

/-- Reads expressions of at most `n` pieces. -/
def Understands (p : Parser Json) (n : Nat) : Prop :=
  ∀ v pieces, Written v pieces → pieces.length ≤ n → Spells (Next (· = ",")) p v pieces

theorem length_le_written {pieces : List (List String)} (h : ∀ ws ∈ pieces, Piece ws) :
    pieces.length ≤ (written pieces).length := by
  induction pieces with
  | nil => simp
  | cons ws pieces ih =>
    obtain ⟨hws, hpieces⟩ := List.forall_mem_cons.1 h
    cases ws with
    | nil => exact absurd rfl hws.nonempty.1
    | cons w ws =>
      have hle := ih hpieces
      simp only [written_cons, place, List.length_append, List.length_cons]
      omega

theorem understands_expression (n : Nat) : Understands expression n := by
  intro v pieces h _
  refine ⟨(h.spells _ (Nat.le_refl _)).proper, fun rest hrest => ?_⟩
  have hlen := length_le_written (h.spells _ (Nat.le_refl _)).proper
  unfold expression
  rw [run_bind_ok (run_get _)]
  refine (h.spells _ ?_).reads rest hrest
  rw [List.length_append]
  omega

/-! ### Arguments -/

/-- Entries in the order they are written, the positional ones numbered on from `n`. -/
inductive Numbered : Nat → Fields → Prop
  | nil (n : Nat) : Numbered n []
  | named {n : Nat} {key : String} {v : Json} {es : Fields} : IsPath key → Numbered n es →
    Numbered n ((key, v) :: es)
  | positional {n : Nat} {v : Json} {es : Fields} : Numbered (n + 1) es → Numbered n ((toString n, v) :: es)

theorem ArgumentKeys.order {args : Fields} {n : Nat} (h : ArgumentKeys args n) :
    ∃ es : Fields, es.Perm args ∧ Numbered 0 es := by
  let place : Nat → String × Json := fun i => (toString i, (args.get (toString i)).getD .null)
  let rest := args.filter fun e => decide (∀ i < n, e.1 ≠ toString i)
  have hplace : ∀ i v, args.get (toString i) = some v → place i = (toString i, v) := by
    intro i v hv
    show (toString i, (args.get (toString i)).getD .null) = _
    rw [hv]
    rfl
  have hplaced : ∀ i < n, place i ∈ args := by
    intro i hi
    obtain ⟨v, hv⟩ := Option.isSome_iff_exists.1 (h.positional i hi)
    rw [hplace i v hv]
    exact Fields.mem_of_get hv
  have hnumbered : ∀ (m k : Nat) es, Numbered (k + m) es → Numbered k ((List.range' k m).map place ++ es) := by
    intro m
    induction m with
    | zero => exact fun k es hes => hes
    | succ m ih =>
      intro k es hes
      exact .positional (ih (k + 1) es (by rwa [Nat.add_right_comm, Nat.add_assoc]))
  refine ⟨(List.range' 0 n).map place ++ rest, ?_, hnumbered n 0 rest ?_⟩
  · have hnodup := h.ordered.names_nodup.of_map
    refine (List.perm_ext_iff_of_nodup (List.Nodup.append ?_ (hnodup.filter _) ?_) hnodup).2 fun e => ?_
    · refine List.Nodup.map ?_ List.nodup_range'
      intro i j hij
      exact decimal_inj (Prod.mk.inj hij).1
    · intro e he he'
      obtain ⟨i, hi, rfl⟩ := List.mem_map.1 he
      have hi : i < n := by simpa using hi
      exact (of_decide_eq_true (List.mem_filter.1 he').2) i hi rfl
    · constructor
      · intro he
        rcases List.mem_append.1 he with he | he
        · obtain ⟨i, hi, rfl⟩ := List.mem_map.1 he
          exact hplaced i (by simpa using hi)
        · exact (List.mem_filter.1 he).1
      · intro he
        by_cases hp : ∀ i < n, e.1 ≠ toString i
        · exact List.mem_append_right _ (List.mem_filter.2 ⟨he, decide_eq_true hp⟩)
        · simp only [not_forall, not_not] at hp
          obtain ⟨i, hi, hkey⟩ := hp
          refine List.mem_append_left _ (List.mem_map.2 ⟨i, by simpa using hi, ?_⟩)
          have hget := h.ordered.get_of_mem he
          rw [hkey] at hget
          rw [hplace i e.2 hget, ← hkey]
  · have hpaths : ∀ e ∈ rest, IsPath e.1 := by
      intro e he
      obtain ⟨he, hp⟩ := List.mem_filter.1 he
      rcases h.keys e he with hpath | ⟨i, hi, hkey⟩
      · exact hpath
      · exact absurd hkey (of_decide_eq_true hp i hi)
    generalize 0 + n = k
    revert hpaths
    generalize rest = es
    intro hpaths
    induction es with
    | nil => exact .nil k
    | cons e es ih =>
      obtain ⟨he, hes⟩ := List.forall_mem_cons.1 hpaths
      exact .named he (ih hes)

/-- What follows the key of an argument. -/
theorem spells_value {p : Parser Json} {n m : Nat} {fs : Fields} {key : String} {v : Json}
    {vs : List (List String)}
    (hp : Understands p n) (hv : Written v vs) (hlen : vs.length ≤ n) (hnew : fs.contains key = false) :
    Spells Any (do
      let value ← p
      if fs.contains key then fail "duplicate argument"
      comma ")"
      return (fs.insert key value, m)) (fs.insert key v, m) (vs ++ [[","]]) := by
  refine (hp v vs hv hlen).before (.no (by rw [hnew]; decide) ?_) (begins_cons rfl)
  exact (Spells.comma (by decide)).result

theorem spells_named {k : Nat} {key : String} {v : Json} {vs : List (List String)} (hkey : IsPath key)
    (hv : Written v vs) :
    ∃ hs, Begins (fun w => isIdent w = true) hs ∧ ∀ {p n} {fs : Fields}, Understands p n → vs.length ≤ n →
      fs.contains key = false → Spells Any (argument p (fs, k)) (fs.insert key v, k) (hs ++ (vs ++ [[","]])) := by
  obtain ⟨q, qs, hq, hqs, rfl⟩ := hkey.parts
  refine ⟨[q] :: dots qs ++ [[":"]], begins_cons hq, fun hp hlen hnew => ?_⟩
  have hvalue := spells_value (m := k) hp hv hlen hnew
  have hcolon : Spells Any (need ":") () [[":"]] := .mark (by decide)
  refine .look (fun ws hws => ?_) fun rest _ => ?_
  · rcases List.mem_append.1 hws with hws | hws
    · rcases List.mem_append.1 hws with hws | hws
      · exact (spells_path hq hqs).proper ws hws
      · exact hcolon.proper ws hws
    · exact hvalue.proper ws hws
  have htexts : ((written ([q] :: dots qs ++ [[":"]] ++ (vs ++ [[","]])) ++ rest).drop 1).map (·.text) =
      (dots qs).flatten ++ ":" :: ((written (vs ++ [[","]]) ++ rest).map (·.text)) := by
    simp [place, written_texts]
  refine .yes (by rw [htexts, named_dots _ (by decide)]; rfl) ?_
  rw [List.append_assoc]
  exact (spells_path hq hqs).before (hcolon.andThen hvalue) (begins_cons (by decide))

theorem spells_positional {k : Nat} {fs : Fields} {v : Json} {vs : List (List String)}
    (hv : Written v vs) {p : Parser Json}
    {n : Nat} (hp : Understands p n) (hlen : vs.length ≤ n) (hnew : fs.contains (toString k) = false) :
    Spells Any (argument p (fs, k)) (fs.insert (toString k) v, k + 1) (vs ++ [[","]]) := by
  have hvalue := spells_value (m := k + 1) hp hv hlen hnew
  refine .look hvalue.proper fun rest _ => .no ?_ hvalue
  rw [Bool.not_eq_true, written_append, List.append_assoc]
  exact hv.positional _ ⟨_, _, rfl, rfl⟩

/-- A key that is written does not come again. -/
theorem contains_fresh {fs : Fields} {e : String × Json} {es : Fields}
    (hfs : ∀ e' ∈ e :: es, fs.contains e'.1 = false)
    (he : e.1 ∉ es.map (·.1)) : ∀ e' ∈ es, (fs.insert e.1 e.2).contains e'.1 = false := by
  intro e' he'
  have hne : e.1 ≠ e'.1 := fun heq => he (heq ▸ List.mem_map_of_mem he')
  have hold := hfs e' (List.mem_cons_of_mem _ he')
  unfold Fields.contains at hold ⊢
  rwa [Fields.get_insert, if_neg hne]

/-- The pieces of arguments do not depend on the reader of their values. -/
theorem Numbered.spelled {k : Nat} {es : Fields} (h : Numbered k es) (hvalues : ∀ e ∈ es, ∃ vs, Written e.2 vs)
    (hnames : (es.map (·.1)).Nodup) : ∃ m pieces, ∀ {p n}, Understands p n → pieces.length ≤ n → ∀ fs : Fields,
      (∀ e ∈ es, fs.contains e.1 = false) → Spells Any (upTo ")" (argument p) (fs, k)) (fs.extend es, m) pieces := by
  induction h with
  | nil k => exact ⟨k, [[")"]], fun _ _ fs _ => Spells.close (mark_piece (c := ')') (by decide)) (by decide)⟩
  | @named k key v es hkey _ ih =>
    obtain ⟨⟨vs, hv⟩, hvalues⟩ := List.forall_mem_cons.1 hvalues
    obtain ⟨hnotin, hnames⟩ := List.nodup_cons.1 hnames
    obtain ⟨m, pieces, hpieces⟩ := ih hvalues hnames
    obtain ⟨hs, hbegins, hargument⟩ := spells_named (k := k) hkey hv
    refine ⟨m, hs ++ (vs ++ [[","]]) ++ pieces, fun hp hlen fs hfs => ?_⟩
    simp only [List.length_append] at hlen
    have hstep := hargument hp (by omega) (hfs (key, v) List.mem_cons_self)
    have hloop := hpieces hp (by omega) _ (contains_fresh hfs hnotin)
    have hopen : Begins (· ≠ ")") hs := hbegins.imp fun w hw => ne_of_isIdent hw (by decide)
    exact Spells.item (hopen.append _) hstep hloop fun _ _ => trivial
  | @positional k v es _ ih =>
    obtain ⟨⟨vs, hv⟩, hvalues⟩ := List.forall_mem_cons.1 hvalues
    obtain ⟨hnotin, hnames⟩ := List.nodup_cons.1 hnames
    obtain ⟨m, pieces, hpieces⟩ := ih hvalues hnames
    refine ⟨m, vs ++ [[","]] ++ pieces, fun hp hlen fs hfs => ?_⟩
    simp only [List.length_append] at hlen
    have hstep := spells_positional hv hp (by omega) (hfs (toString k, v) List.mem_cons_self)
    have hloop := hpieces hp (by omega) _ (contains_fresh hfs hnotin)
    have hopen : Begins (· ≠ ")") vs := hv.starts.imp fun w hw => hw.ne (c := ')') (by decide) (by decide)
    exact Spells.item (hopen.append _) hstep hloop fun _ _ => trivial

theorem ArgumentKeys.spelled {args : Fields} {k : Nat} (h : ArgumentKeys args k)
    (hvalues : ∀ e ∈ args, ∃ vs, Written e.2 vs) :
    ∃ pieces, ∀ {p n}, Understands p n → pieces.length ≤ n →
      Spells Any (argumentsOf p) (.obj args) (["("] :: pieces) := by
  obtain ⟨es, hperm, hnumbered⟩ := h.order
  have hnames : (es.map (·.1)).Nodup := (hperm.map (·.1)).nodup_iff.2 h.ordered.names_nodup
  have hextend : Fields.extend [] es = args := (Fields.extend_of_perm hperm hnames).trans
    (Fields.extend_self h.ordered)
  obtain ⟨m, pieces, hpieces⟩ := hnumbered.spelled (fun e he => hvalues e (hperm.subset he)) hnames
  refine ⟨pieces, fun hp hlen => ?_⟩
  have hitems := hpieces hp hlen [] fun _ _ => rfl
  rw [hextend] at hitems
  exact (Spells.mark (w := "(") (by decide)).andThen hitems.result

/-! ### Every expression -/

theorem Spells.proper_append {α β : Type} {F G : List Token → Prop} {p : Parser α} {q : Parser β}
    {x : α} {y : β}
    {ps qs : List (List String)} (h : Spells F p x ps) (h' : Spells G q y qs) : ∀ ws ∈ ps ++ qs, Piece ws :=
  fun ws hws => (List.mem_append.1 hws).elim (h.proper ws) (h'.proper ws)

theorem named_next {P : String → Prop} {rest : List Token} (h : Next P rest)
    (hP : ∀ w, P w → w ≠ "." ∧ w ≠ ":") :
    named (rest.map (·.text)) = false := by
  obtain ⟨t, ts, rfl, ht⟩ := h
  have hnamed := named_dots [] (hP _ ht).1 (ts.map (·.text))
  simpa [dots, (hP _ ht).2] using hnamed

theorem written_str (s : String) : Written (.str s) [[quote s]] where
  starts := begins_cons (.inr (.inl ⟨s, rfl⟩))
  spells n hn := by
    cases n with
    | zero => simp at hn
    | succ n =>
      refine .skip (begins_cons (quote_ne (by decide)))
        (.no (by decide) (.peek (P := (· = quote s)) (begins_cons rfl) ?_))
      rintro _ rfl
      exact .yes (quoted_quote s) (Spells.string s).result
  positional rest hrest := named_next hrest (by rintro _ rfl; decide)

theorem written_arr {xs : List Json} (h : ∀ x ∈ xs, ∃ vs, Written x vs) :
    ∃ pieces, Written (.arr xs) pieces := by
  have hitems : ∃ pieces, Begins (fun w => w ≠ "." ∧ w ≠ ":") pieces ∧ ∀ n, pieces.length ≤ n → ∀ acc,
      Spells Any (upTo "]" (fun items => do
        let item ← expressionOf n
        comma "]"
        return items ++ [item]) acc) (acc ++ xs) pieces := by
    induction xs with
    | nil =>
      refine ⟨[["]"]], begins_cons (by decide), fun n _ acc => ?_⟩
      rw [List.append_nil]
      exact .close (mark_piece (c := ']') (by decide)) (by decide)
    | cons x xs ih =>
      obtain ⟨⟨vs, hv⟩, hxs⟩ := List.forall_mem_cons.1 h
      obtain ⟨pieces, -, hpieces⟩ := ih hxs
      refine ⟨vs ++ [[","]] ++ pieces, ((hv.starts.imp fun w hw => ?_).append _).append _, fun n hn acc => ?_⟩
      · exact ⟨hw.ne (c := '.') (by decide) (by decide), hw.ne (c := ':') (by decide) (by decide)⟩
      · simp only [List.length_append] at hn
        have hloop := hpieces n (by omega) (acc ++ [x])
        rw [List.append_assoc, List.singleton_append] at hloop
        have hopen : Begins (· ≠ "]") vs := hv.starts.imp fun w hw => hw.ne (c := ']') (by decide) (by decide)
        have hcomma : Spells Any (comma "]") () [[","]] := .comma (by decide)
        exact Spells.item (F := Any) (hopen.append _)
          ((hv.spells n (by omega)).before hcomma.result (begins_cons rfl)) hloop fun _ _ => trivial
  obtain ⟨pieces, hbegins, hpieces⟩ := hitems
  refine ⟨["["] :: pieces, begins_cons (.inl rfl), fun n hn => ?_, fun rest _ => ?_⟩
  · cases n with
    | zero => simp at hn
    | succ n =>
      have hloop := hpieces n (by simpa using hn) []
      rw [List.nil_append] at hloop
      have hopen : Spells Any (eat "[") true [["["]] := .mark_eat (by decide)
      exact hopen.andThen (.yes rfl hloop.result)
  · exact named_next (hbegins.next rest) fun _ h => h

theorem written_call {name : String} {args : Fields} {k : Nat} (hname : IsPath name)
    (hkeys : ArgumentKeys args k)
    (hvalues : ∀ e ∈ args, ∃ vs, Written e.2 vs) :
    ∃ pieces, Written (.obj [("arguments", .obj args), ("name", .str name)]) pieces := by
  obtain ⟨q, qs, hq, hqs, rfl⟩ := hname.parts
  obtain ⟨pieces, hpieces⟩ := hkeys.spelled hvalues
  refine ⟨[q] :: dots qs ++ ["("] :: pieces, begins_cons (.inr (.inr hq)), fun n hn => ?_, fun rest hrest => ?_⟩
  · cases n with
    | zero => simp at hn
    | succ n =>
      have hobject : Fields.extend [] [("name", Json.str
        (qs.foldl (fun name q => name ++ "." ++ q) q)), ("arguments", .obj args)] =
          [("arguments", .obj args), ("name", .str (qs.foldl (fun name q => name ++ "." ++ q) q))] := by
        simp [Fields.extend, Fields.insert, show "arguments" < "name" by decide]
      have hargs := hpieces (p := expressionOf n) (n := n) (fun v vs hv hlen => hv.spells n hlen) (by
        simp only [List.cons_append, List.length_cons, List.length_append] at hn
        omega)
      refine .skip (begins_cons (ne_of_isIdent hq (by decide)))
        (.no (by decide) (.peek (P := fun w => isIdent w = true) (begins_cons hq) ?_))
      intro w hw
      refine .no (by rw [isIdent_unquoted hw]; decide) ((spells_path hq hqs).before ?_
        (begins_cons (by decide)))
      refine .peek (P := (· = "(")) (begins_cons rfl) fun w hw => .yes hw ?_
      rw [← hobject]
      exact hargs.result
  · have htexts : ((written ([q] :: dots qs ++ ["("] :: pieces) ++ rest).drop 1).map (·.text) =
        (dots qs).flatten ++ "(" :: ((written pieces ++ rest).map (·.text)) := by
      simp [place, written_texts]
    rw [htexts, named_dots _ (by decide)]
    rfl

/-- Every expression can be written. -/
theorem IsExpression.written {v : Json} (h : IsExpression v) : ∃ pieces, Written v pieces := by
  induction h with
  | str s => exact ⟨_, written_str s⟩
  | arr _ ih => exact written_arr ih
  | call hname hkeys _ ih => exact written_call hname hkeys ih

theorem IsArguments.spelled {v : Json} (h : IsArguments v) :
    ∃ pieces, Spells Any arguments v (["("] :: pieces) := by
  obtain ⟨args, k, rfl, hkeys, hvalues⟩ := h
  obtain ⟨pieces, hpieces⟩ := hkeys.spelled fun e he => (hvalues e he).written
  exact ⟨pieces, hpieces (understands_expression _) (Nat.le_refl _)⟩

/-! ## Numbers -/

theorem digits_split {cs rest : List Char} (h : digits cs = some rest) :
    ∃ d ds, cs = d :: ds ++ rest ∧ ∀ c ∈ d :: ds, c.isDigit = true := by
  unfold digits at h
  split at h
  · cases h
  · rename_i hne
    cases h
    cases htake : cs.takeWhile Char.isDigit with
    | nil => simp [htake] at hne
    | cons d ds =>
      refine ⟨d, ds, ?_, fun c hc => ?_⟩
      · rw [← htake, List.takeWhile_append_dropWhile]
      · rw [← htake] at hc
        exact List.all_eq_true.1 (List.all_takeWhile (p := Char.isDigit)) c hc

def numberMarks : List Char := ['.', '-', '+', 'e', 'E']

/-- The characters of numbers. -/
def NumberChar (c : Char) : Prop := c.isDigit = true ∨ c ∈ numberMarks

theorem integerPart_split {cs rest : List Char} (h : integerPart cs = some rest) :
    ∃ d ds, cs = d :: ds ++ rest ∧ ∀ c ∈ d :: ds, c.isDigit = true := by
  unfold integerPart at h
  split at h
  · cases h
    exact ⟨'0', [], rfl, by simp⟩
  · exact digits_split h

theorem fractionPart_split {cs rest : List Char} (h : fractionPart cs = some rest) :
    ∃ ds, cs = ds ++ rest ∧ ∀ c ∈ ds, NumberChar c := by
  unfold fractionPart at h
  split at h
  · obtain ⟨d, ds, rfl, hds⟩ := digits_split h
    exact ⟨'.' :: d :: ds, rfl, List.forall_mem_cons.2 ⟨.inr (by decide), fun c hc => .inl (hds c hc)⟩⟩
  · cases h
    exact ⟨[], rfl, by simp⟩

theorem exponentPart_chars {cs : List Char} (h : exponentPart cs = some []) : ∀ c ∈ cs, NumberChar c := by
  have hdigits : ∀ cs, digits cs = some [] → ∀ c ∈ cs, NumberChar c := by
    intro cs hcs
    obtain ⟨d, ds, rfl, hds⟩ := digits_split hcs
    rw [List.append_nil]
    exact fun c hc => .inl (hds c hc)
  unfold exponentPart at h
  split at h
  · rename_i c cs
    split at h
    · rename_i hc
      refine List.forall_mem_cons.2 ⟨?_, ?_⟩
      · rcases hc with rfl | rfl
        · exact .inr (by decide)
        · exact .inr (by decide)
      · split at h
        · exact List.forall_mem_cons.2 ⟨.inr (by decide), hdigits _ h⟩
        · exact List.forall_mem_cons.2 ⟨.inr (by decide), hdigits _ h⟩
        · exact hdigits _ h
    · cases h
  · simp

theorem unsigned_chars {cs : List Char} (h : (integerPart cs >>= fractionPart >>= exponentPart) = some []) :
    ∃ d ds, cs = d :: ds ∧ d.isDigit = true ∧ ∀ c ∈ ds, NumberChar c := by
  obtain ⟨rest', h, hexponent⟩ := Option.bind_eq_some_iff.1 h
  obtain ⟨rest, hinteger, hfraction⟩ := Option.bind_eq_some_iff.1 h
  obtain ⟨d, ds, rfl, hds⟩ := integerPart_split hinteger
  obtain ⟨es, rfl, hes⟩ := fractionPart_split hfraction
  refine ⟨d, ds ++ (es ++ rest'), rfl, hds d List.mem_cons_self, fun c hc => ?_⟩
  rcases List.mem_append.1 hc with hc | hc
  · exact .inl (hds c (List.mem_cons_of_mem _ hc))
  · rcases List.mem_append.1 hc with hc | hc
    · exact hes c hc
    · exact exponentPart_chars hexponent c hc

theorem isNumber_chars {finite : String → Bool} {s : String} (h : isNumber finite s = true) :
    ∃ c cs, s.toList = c :: cs ∧ (c = '-' ∨ c.isDigit = true) ∧ ∀ d ∈ c :: cs, NumberChar d := by
  unfold isNumber at h
  simp only [Bool.and_eq_true, decide_eq_true_eq] at h
  obtain ⟨h, -⟩ := h
  split at h
  · rename_i cs hcs
    obtain ⟨d, ds, rfl, hd, hds⟩ := unsigned_chars h
    refine ⟨'-', d :: ds, hcs, .inl rfl, List.forall_mem_cons.2
      ⟨.inr (by decide), List.forall_mem_cons.2 ⟨.inl hd, hds⟩⟩⟩
  · obtain ⟨d, ds, hs, hd, hds⟩ := unsigned_chars h
    exact ⟨d, ds, hs, .inr hd, List.forall_mem_cons.2 ⟨.inl hd, hds⟩⟩

theorem digit_apart {c : Char} (h : c.isDigit = true) : wordChar c = true ∧ c ∉ punctuation := by
  refine ⟨by simp [wordChar, Char.isAlphanum, h], fun hc => ?_⟩
  have table : (punctuation.all fun c => !c.isDigit) = true := by decide
  have hmark := List.all_eq_true.1 table c hc
  rw [h] at hmark
  cases hmark

/-- A token of a number goes on with what is before it. -/
theorem number_goes {w : String} (h : (w.toList ≠ [] ∧ ∀ c ∈ w.toList, wordChar c = true) ∨
    ∃ c ∈ punctuation, w = String.singleton c)
    (hchars : ∀ c ∈ w.toList, NumberChar c) :
    (w = "." || w = "-" || w.toList.head?.any Char.isAlphanum) = true ∧ w ≠ eof := by
  rcases h with ⟨hne, hall⟩ | ⟨c, hc, rfl⟩
  · cases hw : w.toList with
    | nil => exact absurd hw hne
    | cons c cs =>
      have hmem : c ∈ w.toList := hw ▸ List.mem_cons_self
      have halnum : c.isAlphanum = true := by
        rcases hchars c hmem with hd | hc
        · simp [Char.isAlphanum, hd]
        · have table : (numberMarks.all fun c => !wordChar c || c.isAlphanum) = true := by decide
          simpa [hall c hmem] using List.all_eq_true.1 table c hc
      refine ⟨by simp [halnum], fun heof => ?_⟩
      have hlt : c = '<' := by simpa [eof] using congrArg List.head? (hw.symm.trans (congrArg String.toList heof))
      rw [hlt] at halnum
      cases halnum
  · rcases hchars c (by simp) with hd | hd
    · exact absurd hc (digit_apart hd).2
    · have table : (numberMarks.all fun c => !punctuation.contains c ||
        ((String.singleton c = "." || String.singleton c = "-" ||
          (String.singleton c).toList.head?.any Char.isAlphanum) && String.singleton c ≠ eof)) = true := by decide
      have hrow := List.all_eq_true.1 table c hd
      rw [List.contains_iff_mem.2 hc, Bool.not_true, Bool.false_or, Bool.and_eq_true] at hrow
      exact ⟨hrow.1, of_decide_eq_true hrow.2⟩

theorem adjacent_place {ws : List String} {rest : List Token} (hws : ∀ w ∈ ws, (w = "." || w = "-" ||
    w.toList.head?.any Char.isAlphanum) = true ∧ w ≠ eof)
    (hrest : Next (fun w => w = "," ∨ w = ")") rest) (t : Token) :
    adjacent t (place t.line (t.col + t.text.length) ws ++ rest) = place t.line (t.col + t.text.length) ws := by
  induction ws generalizing t with
  | nil =>
    obtain ⟨u, us, rfl, hu⟩ := hrest
    have hstop : continues t u = false := by
      unfold continues
      rcases hu with hu | hu
      · simp [hu]
      · simp [hu]
    simp [place, adjacent, hstop]
  | cons w ws ih =>
    obtain ⟨⟨hw, hne⟩, hws⟩ := List.forall_mem_cons.1 hws
    have hgoes : continues t ⟨w, t.line, t.col + t.text.length⟩ = true := by simp [continues, hw, hne]
    have hrest := ih hws ⟨w, t.line, t.col + t.text.length⟩
    simp only [place, List.cons_append, adjacent, hgoes, if_true]
    rw [hrest]

theorem spells_number {finite : String → Bool} {s : String} (h : isNumber finite s = true)
    (hplus : '+' ∉ s.toList) :
    ∃ ws, Begins (fun w => startsNumber w = true) [ws] ∧
      Spells (Next fun w => w = "," ∨ w = ")") (number finite) s [ws] := by
  obtain ⟨c, cs, hs, hstart, hchars⟩ := isNumber_chars h
  have hlexed : ∀ d ∈ c :: cs, wordChar d = true ∨ d ∈ punctuation := by
    intro d hd
    rcases hchars d hd with hdigit | hd'
    · exact .inl (digit_apart hdigit).1
    · have hne : d ≠ '+' := fun heq => hplus (by rw [hs, ← heq]; exact hd)
      have table : (numberMarks.all fun d => d = '+' || wordChar d || punctuation.contains d) = true := by decide
      simpa [hne] using List.all_eq_true.1 table d hd'
  obtain ⟨ws, hwords, hjoin⟩ := exists_words (c :: cs) hlexed
  cases ws with
  | nil => simp at hjoin
  | cons w ws =>
    have hmem : ∀ v ∈ w :: ws, ∀ d ∈ v.toList, NumberChar d := fun v hv d hd =>
      hchars d (hjoin ▸ List.mem_flatMap.2 ⟨v, hv, hd⟩)
    have hgoes : ∀ v ∈ w :: ws, _ := fun v hv => number_goes (hwords.texts v hv) (hmem v hv)
    have hstarts : startsNumber w = true := by
      -- the first character is the first one of the first word
      have hfirst : w.toList.head? = some c := by
        cases hw : w.toList with
        | nil =>
          rcases hwords.texts w List.mem_cons_self with ⟨hne, -⟩ | ⟨d, -, rfl⟩
          · exact absurd hw hne
          · simp at hw
        | cons d ds =>
          rw [List.flatMap_cons, hw, List.cons_append, List.cons.injEq] at hjoin
          rw [List.head?_cons, hjoin.1]
      rcases hwords.texts w List.mem_cons_self with ⟨-, hall⟩ | ⟨d, -, rfl⟩
      · rcases hstart with rfl | hc
        · exact absurd (hall '-' (List.mem_of_head? hfirst)) (by decide)
        · simp [startsNumber, hfirst, hc]
      · have hcd : d = c := by simpa using hfirst
        rw [hcd]
        rcases hstart with rfl | hc
        · decide
        · simp [startsNumber, hc]
    refine ⟨w :: ws, begins_cons hstarts, fun vs hvs => ?_, fun rest hrest => ?_⟩
    · rw [List.mem_singleton.1 hvs]
      exact .inr ⟨by simp, hwords⟩
    have hnumeral : numeral (place 0 0 (w :: ws) ++ rest) = place 0 0 (w :: ws) := by
      have hadjacent := adjacent_place (fun v hv => hgoes v (List.mem_cons_of_mem _ hv)) hrest ⟨w, 0, 0⟩
      simp only [place, List.cons_append, numeral]
      rw [hadjacent]
    have htext : String.join ((place 0 0 (w :: ws)).map (·.text)) = s := by
      rw [place_texts]
      exact String.toList_inj.1 (by rw [String.toList_join, hjoin, hs])
    rw [written_cons, written_nil, List.append_nil]
    unfold number
    rw [run_bind_ok (run_get _)]
    simp only [hnumeral, htext, h, if_true, List.drop_left']
    rfl

/-! ## Directives and shapes -/

theorem decimal_piece (n : Nat) : Piece [toString n] := by
  have hlist : (toString n).toList = Nat.toDigits 10 n := by simp
  have hchars : ∀ c ∈ (toString n).toList, wordChar c = true := fun c hc =>
    (digit_apart (Nat.isDigit_of_mem_toDigits (by decide) (by decide) (hlist ▸ hc))).1
  have hne : (toString n).toList ≠ [] := by
    rw [hlist]
    exact Nat.toDigits_ne_nil
  exact .inr ⟨by simp, .word hne hchars .nil (by simp)⟩

theorem spells_version {n : Nat} (h : IsVersion n) : Spells Any (version false) n [["("], [toString n], [")"]] := by
  have htext : parseVersion (toString n) = some n := parseVersion_toString
    (by unfold IsVersion maxSafeInteger at h; omega)
  have hne : toString n ≠ eof := by
    intro heof
    have hnone : parseVersion eof = none := by decide
    rw [← heof, htext] at hnone
    cases hnone
  have hopen : Spells Any (need "(") () [["("]] := .mark (by decide)
  have hclose : Spells Any (need ")") () [[")"]] := .mark (by decide)
  unfold version
  refine .no Bool.false_ne_true (hopen.andThen ?_)
  refine (Spells.take (decimal_piece n) hne).andThen ?_
  rw [htext]
  exact .no (by unfold IsVersion at h; omega) hclose.result

theorem spells_deprecation (reason : Option String) : ∃ pieces, Spells Any deprecation reason pieces := by
  have hopen : Spells Any (eat "(") true [["("]] := .mark_eat (by decide)
  cases reason with
  | none =>
    have hclose : Spells Any (eat ")") true [[")"]] := .mark_eat (by decide)
    refine ⟨[["("]] ++ [[")"]], hopen.andThen (.no (by decide) ?_)⟩
    exact hclose.last (.yes rfl .pure) fun _ _ => trivial
  | some reason =>
    have hname : Spells Any ident "reason" [["reason"]] := .ident (by decide)
    have hcolon : Spells Any (need ":") () [[":"]] := .mark (by decide)
    have hclose : Spells Any (need ")") () [[")"]] := .mark (by decide)
    refine ⟨[["("]] ++ ([["reason"]] ++ ([[":"]] ++ ([[quote reason]] ++ [[")"]]))),
      hopen.andThen (.no (by decide) ?_)⟩
    refine .skip (begins_cons (by decide)) (.no (by decide)
      (hname.andThen (.no (by decide) (hcolon.andThen ?_))))
    refine .peek (P := (· = quote reason)) (begins_cons rfl) ?_
    rintro _ rfl
    refine .no (by rw [quoted_quote]; decide) ((Spells.string reason).andThen hclose.result)

/-- Items that are read into a state, each of which says what it adds. -/
theorem spells_into {γ δ σ : Type} {P : String → Prop} {stop : String} (hpiece : Piece [stop])
    (hne : stop ≠ eof) (hP : P stop) (put : List δ → σ) (step : σ → Parser σ) (f : γ → δ) (xs : List γ)
    (h : ∀ x ∈ xs, ∃ ps, Begins (fun w => w ≠ stop ∧ P w) ps ∧
      ∀ acc, Spells (Next P) (step (put acc)) (put (acc ++ [f x])) ps) :
    ∃ pieces, Begins P pieces ∧ (xs ≠ [] → Begins (· ≠ stop) pieces) ∧
      ∀ acc, Spells Any (upTo stop step (put acc)) (put (acc ++ xs.map f)) pieces := by
  induction xs with
  | nil =>
    refine ⟨[[stop]], begins_cons hP, (absurd rfl ·), fun acc => ?_⟩
    rw [List.map_nil, List.append_nil]
    exact .close hpiece hne
  | cons x xs ih =>
    obtain ⟨⟨ps, hbegins, hps⟩, hxs⟩ := List.forall_mem_cons.1 h
    obtain ⟨pieces, hpieces, -, hall⟩ := ih hxs
    have hopen : Begins (· ≠ stop) ps := hbegins.imp fun _ h => h.1
    refine ⟨ps ++ pieces, (hbegins.imp fun _ h => h.2).append _, fun _ => hopen.append _, fun acc => ?_⟩
    have hloop := hall (acc ++ [f x])
    rw [List.append_assoc, List.singleton_append, ← List.map_cons] at hloop
    exact Spells.item hopen (hps acc) hloop fun rest _ => hpieces.next rest

/-- A list of items. -/
theorem spells_items {γ δ : Type} {stop : String} (hpiece : Piece [stop]) (hne : stop ≠ eof)
    (step : List δ → Parser (List δ)) (f : γ → δ) (xs : List γ)
    (h : ∀ x ∈ xs, ∃ ps, Begins (· ≠ stop) ps ∧ ∀ acc, Spells Any (step acc) (acc ++ [f x]) ps) :
    ∃ pieces, (xs ≠ [] → Begins (· ≠ stop) pieces) ∧ ∀ acc,
    Spells Any (upTo stop step acc) (acc ++ xs.map f) pieces := by
  obtain ⟨pieces, -, hpieces⟩ := spells_into (P := fun _ => True) hpiece hne trivial (fun acc => acc) step f xs
    fun x hx => by
    obtain ⟨ps, hbegins, hps⟩ := h x hx
    exact ⟨ps, hbegins.imp fun _ h => ⟨h, trivial⟩, fun acc => (hps acc).weaken fun _ _ => trivial⟩
  exact ⟨pieces, hpieces⟩

theorem spells_names (stop : String) (hpiece : Piece [stop]) (hne : stop ≠ eof) (hstop : stop ≠ ",")
    (hident : isIdent stop = false)
    {ns : List String} (h : ∀ n ∈ ns, isIdent n = true) : ∃ pieces, Spells Any (names stop) ns pieces := by
  obtain ⟨pieces, -, hpieces⟩ := spells_items hpiece hne
    (fun ns => do
      let n ← ident
      comma stop
      return ns ++ [n]) id ns fun n hn => by
    refine ⟨[[n]] ++ [[","]], begins_cons (ne_of_isIdent (h n hn) hident), fun acc => ?_⟩
    exact (Spells.ident (h n hn)).andThen (Spells.comma hstop).result
  have hall := hpieces []
  rw [List.map_id, List.nil_append] at hall
  exact ⟨pieces, hall⟩

/-- What follows a shape: nothing of the shape. -/
def Shaped (w : String) : Prop := w ≠ "[" ∧ w ≠ "?"

/-- What follows a field or a slot: no directive either. -/
def Ended (w : String) : Prop := w ≠ "[" ∧ w ≠ "?" ∧ w ≠ "@"

def bracketPieces (list : Bool) : List (List String) := if list then [["["], ["]"]] else []

def markPieces (nullable : Bool) : List (List String) := if nullable then [["?"]] else []

theorem spells_brackets (list : Bool) : Spells (Next (· ≠ "[")) brackets list (bracketPieces list) := by
  cases list with
  | false => exact Spells.eatNot.last (.no (by decide) .pure) fun _ h => h
  | true =>
    have hopen : Spells Any (eat "[") true [["["]] := .mark_eat (by decide)
    have hclose : Spells Any (need "]") () [["]"]] := .mark (by decide)
    show Spells _ _ _ ([["["]] ++ [["]"]])
    exact hopen.andThen (.yes rfl hclose.result)

theorem spells_mark (nullable : Bool) : Spells (Next Shaped) (eat "?") nullable (markPieces nullable) := by
  cases nullable with
  | false => exact Spells.eatNot.weaken fun _ h => h.imp fun _ h => h.2
  | true =>
    have hmark : Spells Any (eat "?") true [["?"]] := .mark_eat (by decide)
    exact hmark.weaken fun _ _ => trivial

/-- No bracket comes after a shape. -/
theorem markPieces_next (nullable : Bool) {rest : List Token} (h : Next Shaped rest) :
    Next (· ≠ "[") (written (markPieces nullable) ++ rest) := by
  cases nullable with
  | false => exact h.imp fun _ h => h.1
  | true =>
    have hmark : Begins (· ≠ "[") [["?"]] := begins_cons (by decide)
    exact hmark.next rest

theorem spells_actionShape {list nullable : Bool} (h : ¬ (list = true ∧ nullable = true)) :
    Spells (Next Shaped) actionShape (list, nullable) (bracketPieces list ++ markPieces nullable) := by
  refine (spells_brackets list).bind ((spells_mark nullable).last (.peekNext fun w hw => ?_) fun _ h => h)
    fun _ => markPieces_next nullable
  exact .no hw.1 (.no h .pure)

/-! ### Directives -/

theorem directive_stop {rest : List Token} (h : Next (· ≠ "@") rest) :
    directive.run rest = .ok (false, rest) := by
  obtain ⟨t, ts, rfl, ht⟩ := h
  unfold directive
  rw [run_bind_ok (run_get _)]
  simp [peek, token, ht]

/-- No directive is left. -/
theorem spells_stop {σ : Type} {step : σ → Parser σ} {s : σ} :
    Spells (Next Ended) (Scan.loop directive step s) s [] :=
  ⟨by simp, fun _ hrest => loop_stop (directive_stop (hrest.imp fun _ h => h.2.2))⟩

/-- One directive, and what the rest of them does. -/
theorem spells_directive {σ : Type} {step : σ → Parser σ} {s s' t : σ} {attr : String}
    (hattr : isIdent attr = true)
    {ps qs : List (List String)} (h : Spells Any (step s) s' (["@"] :: [attr] :: ps))
    (hloop : Spells (Next Ended) (Scan.loop directive step s') t qs) :
    Spells (Next Ended) (Scan.loop directive step s) t (["@"] :: [attr] :: ps ++ qs) where
  proper := h.proper_append hloop
  reads := by
    rw [written_append]
    refine Reads.round (fun rest => ?_) (by simp) h.reads hloop.reads fun _ _ => trivial
    have hne : attr ≠ "@" := ne_of_isIdent hattr (by decide)
    show directive.run (⟨"@", 0, 0⟩ :: ⟨attr, 0, 0⟩ :: (written ps ++ rest)) = _
    unfold directive
    rw [run_bind_ok (run_get _)]
    simp [peek, token, hne]

section
variable {finite : String → Bool}

/-- Any expression will do for an argument of a default. -/
theorem spells_defaultArguments (finite : String → Bool) (k n : Nat) :
    ∃ pieces, Spells Any (upTo ")" (defaultArgument finite) k) (k + n) pieces := by
  have hcomma : Spells Any (comma ")") () [[","]] := .comma (by decide)
  induction n generalizing k with
  | zero => exact ⟨_, .close (mark_piece (c := ')') (by decide)) (by decide)⟩
  | succ n ih =>
    obtain ⟨pieces, hpieces⟩ := ih (k + 1)
    rw [Nat.add_assoc, Nat.add_comm 1 n] at hpieces
    refine ⟨[[quote ""]] ++ [[","]] ++ pieces, Spells.item (F := Any)
      (begins_cons (quote_ne (by decide))) ?_ hpieces fun _ _ => trivial⟩
    refine .peek (P := (· = quote "")) (begins_cons rfl) ?_
    rintro _ rfl
    refine .no (quote_ne (by decide)) (.peek (P := (· = quote "")) (begins_cons rfl) ?_)
    rintro _ rfl
    have hopens : Opens (quote "") := .inr (.inl ⟨"", rfl⟩)
    refine .no (by rw [hopens.not_number]; decide) ?_
    exact (understands_expression _ _ _ (written_str "") (Nat.le_refl _)).before hcomma.result (begins_cons rfl)

theorem spells_defaultValue {d : DefaultExpr} (h : d.WellFormed finite) :
    ∃ pieces, Spells Any (defaultValue finite {}) ⟨d, {}⟩ (["("] :: pieces) := by
  have hopen : Spells Any (need "(") () [["("]] := .mark (by decide)
  have hclose : Spells Any (need ")") () [[")"]] := .mark (by decide)
  cases d with
  | string s =>
    refine ⟨[[quote s]] ++ [[")"]], hopen.andThen (.peek (P := (· = quote s)) (begins_cons rfl) ?_)⟩
    rintro _ rfl
    refine .no (quote_ne (by decide)) (.peek (P := (· = quote s)) (begins_cons rfl) ?_)
    rintro _ rfl
    refine .peek (P := (· = quote s)) (begins_cons rfl) fun _ _ => .yes (quoted_quote s) ?_
    exact ((Spells.string s).map _).andThen hclose.result
  | number s =>
    obtain ⟨ws, hbegins, hws⟩ := spells_number h.1 h.2
    have hnumber := hbegins.append [[")"]]
    refine ⟨[ws] ++ [[")"]], hopen.andThen (.peek hnumber fun w hw => ?_)⟩
    have hne : w ≠ ")" := by
      rintro rfl
      revert hw
      decide
    refine .no hne (.peek hnumber fun w hw => .peek hnumber fun w' hw' => ?_)
    have hplain : quoted w = false := by
      by_contra hquoted
      rw [Bool.not_eq_false] at hquoted
      have hdash : w ≠ "-" := by
        rintro rfl
        cases hquoted
      simp [startsNumber, hdash, quoted_head hquoted, Char.isDigit] at hw
    refine .no (by rw [hplain]; decide) (.yes hw' ?_)
    exact (hws.map _).before hclose.result (begins_cons (.inr rfl))
  | identifier name =>
    have hname : Begins (fun w => isIdent w = true) ([[name]] ++ [[")"]]) := begins_cons h
    refine ⟨[[name]] ++ [[")"]], hopen.andThen (.peek hname fun w hw => .no (ne_of_isIdent hw (by decide)) ?_)⟩
    refine .peek hname fun w hw => .peek hname fun w' hw' => ?_
    refine .no (by rw [isIdent_unquoted hw]; decide) (.no ?_ ((Spells.ident h).andThen ?_))
    · rw [Opens.not_number (.inr (.inr hw'))]
      decide
    · refine .peek (P := (· = ")")) (begins_cons rfl) ?_
      rintro _ rfl
      exact .no (by decide) hclose.result.given
  | call name k =>
    obtain ⟨args, hargs⟩ := spells_defaultArguments finite 0 k
    have hname : Begins (fun w => isIdent w = true) ([[name]] ++ ([["("]] ++ (args ++ [[")"]]))) :=
      begins_cons h
    refine ⟨[[name]] ++ ([["("]] ++ (args ++ [[")"]])),
      hopen.andThen (.peek hname fun w hw => .no (ne_of_isIdent hw (by decide)) ?_)⟩
    refine .peek hname fun w hw => .peek hname fun w' hw' => ?_
    refine .no (by rw [isIdent_unquoted hw]; decide) (.no ?_ ((Spells.ident h).andThen ?_))
    · rw [Opens.not_number (.inr (.inr hw'))]
      decide
    · refine .peek (P := (· = "(")) (begins_cons rfl) ?_
      rintro _ rfl
      rw [Nat.zero_add] at hargs
      exact .yes rfl (hopen.andThen ((hargs.map _).andThen hclose.result))

/-! ### Fields -/

theorem spells_marked (finite : String → Bool) (s : Attributes) (h : s.deprecated = none)
    (reason : Option String) :
    ∃ ps, Spells Any (fieldDirective finite s) { s with deprecated := some reason } (["@"] :: ["deprecated"] :: ps) := by
  obtain ⟨ps, hps⟩ := spells_deprecation reason
  refine ⟨ps, .pos begins_any (.labelled (by decide) (.yes rfl ?_))⟩
  exact .no (by rw [h]; decide) hps.result

theorem spells_default (s : Attributes) (h : s.default = none) {d : DefaultExpr} (hd : d.WellFormed finite) :
    ∃ ps, Spells Any (fieldDirective finite s) { s with default := some ⟨d, {}⟩ } (["@"] :: ["default"] :: ps) := by
  obtain ⟨ps, hps⟩ := spells_defaultValue hd
  refine ⟨["("] :: ps, .pos begins_any (.labelled (by decide) (.no (by decide) ?_))⟩
  refine .yes rfl ?_
  exact .no (by rw [h]; decide) hps.result

theorem spells_attribute (finite : String → Bool) (s : Attributes) {attr : String}
    (hattr : attr ∈ ["reference", "inverse", "requires"]) {v : Json}
    (hv : IsArguments v) (h : s.args.contains attr = false) :
    ∃ ps, Spells Any (fieldDirective finite s) { s with args := s.args.insert attr v } (["@"] :: [attr] :: ps) := by
  have hkeys : ∀ attr ∈ ["reference", "inverse", "requires"], isIdent attr = true ∧
    attr ≠ "deprecated" ∧ attr ≠ "default" := by
    decide
  obtain ⟨hident, hdeprecated, hdefault⟩ := hkeys attr hattr
  obtain ⟨ps, hps⟩ := hv.spelled
  refine ⟨["("] :: ps, .pos begins_any (.labelled hident ?_)⟩
  refine .no hdeprecated ?_
  refine .no hdefault (.no (not_not_intro hattr) (hps.last (.no ?_ .pure) fun _ _ => trivial))
  rw [h]
  exact Bool.false_ne_true

/-- The loop over a field's directives. -/
abbrev fieldDirectives (finite : String → Bool) (s : Attributes) : Parser Attributes :=
  Scan.loop directive (fieldDirective finite) s

theorem spells_tail {s : Attributes} (hdeprecated : s.deprecated = none) (hdefault : s.default = none)
    (reason : Option (Option String)) {d : Option DefaultDecl} (hd : ∀ e ∈ d, e.expr.WellFormed finite) :
    ∃ ps, Leads (· = "@") ps ∧ Spells (Next Ended) (fieldDirectives finite s)
      { s with deprecated := reason, default := d.map (·.unplaced) } ps := by
  have hlast : ∀ s : Attributes, s.default = none → ∃ ps, Leads (· = "@") ps ∧
      Spells (Next Ended) (fieldDirectives finite s) { s with default := d.map (·.unplaced) } ps := by
    intro s hs
    cases d with
    | none =>
      cases s
      cases hs
      exact ⟨[], .inl rfl, spells_stop⟩
    | some d =>
      obtain ⟨ps, hps⟩ := spells_default s hs (hd d rfl)
      exact ⟨_, .inr (begins_cons rfl), spells_directive (by decide) hps spells_stop⟩
  cases reason with
  | none =>
    cases s
    cases hdeprecated
    exact hlast _ hdefault
  | some reason =>
    obtain ⟨ps, hps⟩ := spells_marked finite s hdeprecated reason
    obtain ⟨qs, -, hqs⟩ := hlast { s with deprecated := some reason } hdefault
    exact ⟨_, .inr (begins_cons rfl), spells_directive (by decide) hps hqs⟩

theorem spells_attributes {attrs : Fields} (hattrs : ∀ e ∈ attrs,
    e.1 ∈ ["reference", "inverse", "requires"] ∧ IsArguments e.2)
    (hnames : (attrs.map (·.1)).Nodup) {t : Attributes} {qs : List (List String)} {s : Attributes}
    (hs : ∀ e ∈ attrs, s.args.contains e.1 = false) (hq : Leads (· = "@") qs)
    (hqs : Spells (Next Ended) (fieldDirectives finite { s with args := s.args.extend attrs }) t qs) :
    ∃ ps, Leads (· = "@") ps ∧ Spells (Next Ended) (fieldDirectives finite s) t ps := by
  induction attrs generalizing s with
  | nil => exact ⟨qs, hq, hqs⟩
  | cons e attrs ih =>
    obtain ⟨⟨hattr, hargs⟩, hattrs⟩ := List.forall_mem_cons.1 hattrs
    obtain ⟨hnotin, hnames⟩ := List.nodup_cons.1 hnames
    obtain ⟨ps, hps⟩ := spells_attribute finite s hattr hargs (hs e List.mem_cons_self)
    obtain ⟨rs, -, hrs⟩ := ih hattrs hnames (s := { s with args := s.args.insert e.1 e.2 })
      (contains_fresh hs hnotin) hqs
    have hident : ∀ attr ∈ ["reference", "inverse", "requires"], isIdent attr = true := by decide
    exact ⟨_, .inr (begins_cons rfl), spells_directive (hident _ hattr) hps hrs⟩

theorem FieldDecl.WellFormed.directives {f : FieldDecl} {action : Bool} (h : f.WellFormed finite action) :
    ∃ ps, Leads (· = "@") ps ∧ Spells (Next Ended) (fieldDirectives finite {})
      ⟨f.attributes, f.deprecated, f.default.map (·.unplaced)⟩ ps := by
  obtain ⟨qs, hq, hqs⟩ := spells_tail (s := { args := f.attributes }) rfl rfl f.deprecated h.default
  refine spells_attributes h.attributes h.ordered.names_nodup (fun _ _ => rfl) hq ?_
  rw [Fields.extend_self h.ordered]
  exact hqs

/-- How what follows the type of a field begins. -/
def Suffix (w : String) : Prop := w = "[" ∨ w = "?" ∨ w = "@"

theorem shape_leads (list nullable : Bool) : Leads Suffix (bracketPieces list ++ markPieces nullable) := by
  cases list with
  | true => exact .inr (begins_cons (.inl rfl))
  | false =>
    cases nullable with
    | true => exact .inr (begins_cons (.inr (.inl rfl)))
    | false => exact .inl rfl

/-- Directives that end come after a whole shape. -/
theorem Leads.shaped {ps : List (List String)} (h : Leads (· = "@") ps) {rest : List Token}
    (hrest : Next Ended rest) :
    Next Shaped (written ps ++ rest) := by
  refine h.next ?_ (hrest.imp fun _ h => ⟨h.1, h.2.1⟩)
  rintro _ rfl
  unfold Shaped
  decide

theorem FieldDecl.WellFormed.spelled_rest {f : FieldDecl} {action : Bool} (h : f.WellFormed finite action) :
    ∃ ps, Leads Suffix ps ∧ Spells (Next Ended) (fieldAfterHeader finite f.name f.typeName {} action) f.unplaced ps := by
  obtain ⟨ds, hleads, hds⟩ := h.directives
  refine ⟨bracketPieces f.list ++ markPieces f.nullable ++ ds, ?_, ?_⟩
  · exact (shape_leads f.list f.nullable).append (fun _ h => h)
      (hleads.imp_right fun h => h.imp fun _ h => .inr (.inr h))
  unfold fieldAfterHeader
  cases action with
  | true => exact .yes rfl ((spells_actionShape (h.shape rfl)).bind
    (hds.last .pure fun _ h => h) fun _ => hleads.shaped)
  | false =>
    rw [List.append_assoc]
    refine .no Bool.false_ne_true ((spells_brackets f.list).bind (G := Next Ended)
      ((spells_mark f.nullable).bind ?_
      fun _ => hleads.shaped) fun rest hrest => ?_)
    · refine Spells.given ?_
      exact hds.last .pure fun _ h => h
    · rw [written_append, List.append_assoc]
      exact markPieces_next f.nullable (hleads.shaped hrest)

theorem FieldDecl.WellFormed.spelled {f : FieldDecl} {action : Bool} (h : f.WellFormed finite action) :
    ∃ ps, Begins (fun w => isIdent w = true) ps ∧ Spells (Next Ended) (field finite action) f.unplaced ps := by
  obtain ⟨ps, -, hps⟩ := h.spelled_rest
  refine ⟨[[f.name]] ++ ([[f.typeName]] ++ ps), begins_cons h.name, .pos begins_any ?_⟩
  exact (Spells.ident h.name).andThen ((Spells.ident h.typeName).andThen hps)

/-! ### Slots -/

theorem spells_slotDirectives (reason : Option (Option String)) : ∃ ps, Leads (· = "@") ps ∧
    Spells (Next Ended) (Scan.loop directive slotDirective none) reason ps := by
  cases reason with
  | none => exact ⟨[], .inl rfl, spells_stop⟩
  | some reason =>
    obtain ⟨ps, hps⟩ := spells_deprecation reason
    have hstep : Spells Any (slotDirective none) (some reason) (["@"] :: ["deprecated"] :: ps) :=
      .labelled (by decide) (.no (by decide) (.no (by decide) hps.result))
    exact ⟨_, .inr (begins_cons rfl), spells_directive (by decide) hstep spells_stop⟩

theorem SlotDecl.WellFormed.head {s : SlotDecl} (h : s.WellFormed) :
    ∃ ps, Spells Any slotHead (s.operation, s.allowedPatchFields, s.relationBindings) (["."] :: ps) := by
  have hdot : Spells Any (need ".") () [["."]] := .mark (by decide)
  have hoperations : ∀ o ∈ ["create", "update", "delete"], isIdent o = true := by decide
  obtain ⟨args, hargs⟩ := h.bindings.spelled
  have hbindings : ∀ {β : Type} {k : Json → Parser β} {y : β}, Spells Any (k s.relationBindings) y [] →
      Spells Any (Parser.peek >>= fun w => if w = "(" then arguments >>= k else pure (.obj []) >>= k) y (["("] :: args) := by
    intro β k y hk
    exact .peek (P := (· = "(")) (begins_cons rfl) fun w hw => .yes hw (hargs.last hk fun _ h => h)
  cases hallowed : s.allowedPatchFields with
  | none =>
    refine ⟨[[s.operation]] ++ (["("] :: args), hdot.andThen
      ((Spells.ident (hoperations _ h.operation)).andThen ?_)⟩
    refine .no (not_not_intro h.operation) (.skip (begins_cons (by decide)) (.no Bool.false_ne_true ?_))
    exact hbindings .pure
  | some ns =>
    obtain ⟨hupdate, hns⟩ := h.allowed ns hallowed
    obtain ⟨ps, hps⟩ := spells_names ">" (mark_piece (c := '>') (by decide)) (by decide) (by decide)
      (by decide) hns
    have hopen : Spells Any (eat "<") true [["<"]] := .mark_eat (by decide)
    refine ⟨[[s.operation]] ++ ([["<"]] ++ (ps ++ (["("] :: args))),
      hdot.andThen ((Spells.ident (hoperations _ h.operation)).andThen ?_)⟩
    refine .no (not_not_intro h.operation) (hopen.andThen (.yes rfl (.no (not_not_intro hupdate) ?_)))
    exact (hps.map some).andThen (hbindings .pure)

/-- The shape of each cardinality. -/
theorem SlotDecl.WellFormed.shape {s : SlotDecl} (h : s.WellFormed) :
    ∃ list nullable, ¬ (list = true ∧ nullable = true) ∧
    Parser.cardinality list nullable = s.cardinality := by
  have hcases := h.cardinality
  simp only [List.mem_cons, List.not_mem_nil, or_false] at hcases
  rcases hcases with h | h | h
  · exact ⟨true, false, by decide, h.symm⟩
  · exact ⟨false, true, by decide, h.symm⟩
  · exact ⟨false, false, by decide, h.symm⟩

theorem SlotDecl.WellFormed.spelled_rest {s : SlotDecl} (h : s.WellFormed) :
    ∃ ps, Spells (Next Ended) (slot s.name s.model {}) s.unplaced (["."] :: ps) := by
  obtain ⟨ps, hps⟩ := h.head
  obtain ⟨list, nullable, hshape, hcardinality⟩ := h.shape
  obtain ⟨ds, hleads, hds⟩ := spells_slotDirectives s.deprecated
  refine ⟨ps ++ (bracketPieces list ++ markPieces nullable ++ ds), hps.andThen ?_⟩
  refine (spells_actionShape hshape).bind ?_ fun _ => hleads.shaped
  refine hds.last ?_ fun _ h => h
  rw [hcardinality]
  exact .pure

/-- A slot of a mutation block is written as one with a shape. -/
theorem SlotDecl.WellFormed.spelled {s : SlotDecl} (h : s.WellFormed) :
    ∃ ps, Begins (fun w => isIdent w = true) ps ∧ Spells (Next Ended) blockSlot s.unplaced ps := by
  obtain ⟨ps, hps⟩ := h.head
  obtain ⟨list, nullable, hshape, hcardinality⟩ := h.shape
  obtain ⟨ds, hleads, hds⟩ := spells_slotDirectives s.deprecated
  have hend : Spells (Next Ended) (Scan.loop directive slotDirective none >>= fun deprecated =>
      pure (⟨s.name, s.model, s.operation, Parser.cardinality list nullable, s.allowedPatchFields,
        s.relationBindings, deprecated, {}⟩ : SlotDecl))
      s.unplaced ds := by
    refine hds.last ?_ fun _ h => h
    rw [hcardinality]
    exact .pure
  refine ⟨[[s.name]] ++ ([[s.model]] ++ ((["."] :: ps) ++
    (bracketPieces list ++ (markPieces nullable ++ ds)))), begins_cons h.name, ?_⟩
  refine .pos begins_any ((Spells.ident h.name).andThen ((Spells.ident h.model).andThen (hps.andThen ?_)))
  refine (spells_brackets list).bind (G := Next Ended) ?_ fun rest hrest => ?_
  · cases list with
    | true =>
      have hsingle : nullable = false := by simpa using hshape
      subst hsingle
      exact .yes rfl hend
    | false => exact .no Bool.false_ne_true ((spells_mark nullable).bind hend fun _ => hleads.shaped)
  · rw [written_append, List.append_assoc]
    exact markPieces_next nullable (hleads.shaped hrest)

/-! ### Operations -/

theorem comma_ended {w : String} (h : w = ",") : Ended w := by
  rw [h]
  unfold Ended
  decide

theorem spells_input {i : ActionInputDecl} (h : i.WellFormed finite) :
    ∃ ps, Begins (fun w => isIdent w = true) ps ∧ ∀ acc,
    Spells Any (operationInput finite acc) (acc ++ [i.unplaced]) ps := by
  have hcomma : Spells Any (comma ")") () [[","]] := .comma (by decide)
  have hend : ∀ acc : List ActionInputDecl, Spells Any (do
      if (← Parser.peek) = eof then fail "expected )"
      comma ")"
      return acc ++ [i.unplaced]) (acc ++ [i.unplaced]) [[","]] := fun acc =>
    .peek (P := (· = ",")) (begins_cons rfl) fun w hw => .no (hw ▸ by decide) hcomma.result
  cases i with
  | value f =>
    obtain ⟨ps, hleads, hps⟩ := h.spelled_rest
    refine ⟨[[f.name]] ++ ([[f.typeName]] ++ (ps ++ [[","]])), begins_cons h.name, fun acc => ?_⟩
    refine .pos begins_any ((Spells.ident h.name).andThen ((Spells.ident h.typeName).andThen ?_))
    refine .peek (P := (· ≠ ".")) (hleads.begins ?_ (begins_cons (by decide))) fun w hw => .no hw ?_
    · rintro w (rfl | rfl | rfl) <;> decide
    · exact (hps.map _).before (hend acc) (begins_cons (comma_ended rfl))
  | model s =>
    obtain ⟨ps, hps⟩ := h.spelled_rest
    refine ⟨[[s.name]] ++ ([[s.model]] ++ ((["."] :: ps) ++ [[","]])), begins_cons h.name, fun acc => ?_⟩
    refine .pos begins_any ((Spells.ident h.name).andThen ((Spells.ident h.model).andThen ?_))
    refine .peek (P := (· = ".")) (begins_cons rfl) fun w hw => .yes hw ?_
    exact (hps.map _).before (hend acc) (begins_cons (comma_ended rfl))

theorem spells_inputs {inputs : List ActionInputDecl} (h : ∀ i ∈ inputs, i.WellFormed finite) :
    ∃ ps, Spells Any (operationInputs finite) (inputs.map (·.unplaced)) (["("] :: ps) := by
  have hopen : Spells Any (need "(") () [["("]] := .mark (by decide)
  obtain ⟨ps, -, hps⟩ := spells_items (mark_piece (c := ')') (by decide)) (by decide)
    (operationInput finite) ActionInputDecl.unplaced inputs fun i hi => by
    obtain ⟨ps, hbegins, hps⟩ := spells_input (h i hi)
    exact ⟨ps, hbegins.imp fun w hw => ne_of_isIdent hw (by decide), hps⟩
  exact ⟨ps, hopen.andThen (hps [])⟩

theorem spells_outputs {outputs : List ActionOutputDecl} (h : ∀ o ∈ outputs, o.field.WellFormed finite true) :
    ∃ ps, (outputs ≠ [] → Begins (· ≠ "\x7d") ps) ∧ Spells Any (operationOutputs finite)
    (outputs.map (·.unplaced)) ps := by
  obtain ⟨ps, hbegins, hps⟩ := spells_items (mark_piece (c := '\x7d') (by decide)) (by decide)
    (operationOutput finite) ActionOutputDecl.unplaced outputs fun o ho => by
    have hcomma : Spells Any (eat ",") true [[","]] := .mark_eat (by decide)
    obtain ⟨ps, hbegins, hps⟩ := (h o ho).spelled
    refine ⟨ps ++ [[","]], (hbegins.imp fun w hw => ne_of_isIdent hw (by decide)).append _, fun acc => ?_⟩
    refine .peek (hbegins.append _) fun w hw => .no (ne_of_isIdent hw (by decide)) ?_
    exact hps.before (hcomma.result) (begins_cons (comma_ended rfl))
  exact ⟨ps, hbegins, hps []⟩

/-! ### Declarations -/

/-- The loop over the directives before a declaration. -/
abbrev leadingDirectives (s : Leading) : Parser Leading :=
  Scan.loop (return decide ((← Parser.peek) = "@")) leadingDirective s

theorem spells_noLeading {s : Leading} : Spells (Next (· ≠ "@")) (leadingDirectives s) s [] := by
  refine ⟨by simp, fun rest hrest => loop_stop ?_⟩
  obtain ⟨t, ts, rfl, ht⟩ := hrest
  simp [Parser.peek, token, ht]

theorem spells_leadingDirective {s s' t : Leading} {ps qs : List (List String)}
    (h : Spells Any (leadingDirective s) s' (["@"] :: ps))
    (hloop : Spells (Next (· ≠ "@")) (leadingDirectives s') t qs) :
    Spells (Next (· ≠ "@")) (leadingDirectives s) t (["@"] :: ps ++ qs) where
  proper := h.proper_append hloop
  reads := by
    rw [written_append]
    exact Reads.round (fun rest => rfl) (by simp) h.reads hloop.reads fun _ _ => trivial

theorem spells_leading {n : Nat} (hn : IsVersion n) (sequence : Option SequenceDecl)
    (hs : ∀ s ∈ sequence, IsArguments s.arguments) :
    ∃ ps, Begins (· = "@") ps ∧ Spells (Next (· ≠ "@")) (leadingDirectives {})
    ⟨n, true, sequence.map (·.unplaced)⟩ ps := by
  have hversion : Spells Any (leadingDirective {}) ⟨n, true, none⟩
    (["@"] :: ([["version"]] ++ [["("], [toString n], [")"]])) :=
    .pos begins_any (.labelled (by decide) (.yes rfl (spells_version hn).result))
  cases sequence with
  | none => exact ⟨_, begins_cons rfl, spells_leadingDirective hversion spells_noLeading⟩
  | some sequence =>
    obtain ⟨ps, hps⟩ := (hs sequence rfl).spelled
    have hsequence : Spells Any (leadingDirective ⟨n, true, none⟩) ⟨n, true, some sequence.unplaced⟩
        (["@"] :: ([["sequence"]] ++ (["("] :: ps))) := by
      refine .pos begins_any (.labelled (by decide) (.no (by decide) (.yes rfl ?_)))
      exact .no Bool.false_ne_true hps.result
    exact ⟨_, begins_cons rfl, spells_leadingDirective hversion
      (spells_leadingDirective hsequence spells_noLeading)⟩

/-! ### Blocks -/

/-- Marks on some of the values are marks at each value. -/
theorem exists_marks {values : List String} {deprecated : List (String × Option String)}
    (h : (deprecated.map (·.1)).Sublist values) : ∃ items : List (String × Option (Option String)),
    items.map (·.1) = values ∧
      items.flatMap (fun i => (i.2.map fun reason => (i.1, reason)).toList) = deprecated := by
  induction values generalizing deprecated with
  | nil =>
    have hnil : deprecated = [] := by simpa using h
    exact ⟨[], rfl, hnil.symm⟩
  | cons v values ih =>
    cases deprecated with
    | nil =>
      obtain ⟨items, hvalues, hmarks⟩ := @ih [] (List.nil_sublist values)
      exact ⟨(v, none) :: items, by simp [hvalues], by simpa using hmarks⟩
    | cons d deprecated =>
      rw [List.map_cons, List.cons_sublist_cons'] at h
      rcases h with h | ⟨rfl, h⟩
      · obtain ⟨items, hvalues, hmarks⟩ := @ih (d :: deprecated) h
        exact ⟨(v, none) :: items, by simp [hvalues], by simpa using hmarks⟩
      · obtain ⟨items, hvalues, hmarks⟩ := ih h
        exact ⟨(d.1, some d.2) :: items, by simp [hvalues], by simpa using hmarks⟩

theorem spells_enumValue {value : String} (h : isIdent value = true) (mark : Option (Option String)) :
    ∃ ps, Begins (fun w => isIdent w = true) ps ∧ ∀ s, Spells Any (enumValue s)
      (s.1 ++ [value], s.2 ++ (mark.map fun reason => (value, reason)).toList) ps := by
  have hcomma : Spells Any (eat ",") true [[","]] := .mark_eat (by decide)
  have hend : ∀ s : List String × List (String × Option String), Spells Any (do
      let _ ← eat ","
      return (s.1 ++ [value], s.2 ++ (mark.map fun reason => (value, reason)).toList))
      (s.1 ++ [value], s.2 ++ (mark.map fun reason => (value, reason)).toList) [[","]] := fun s => hcomma.result
  cases mark with
  | none =>
    refine ⟨[[value]] ++ ([] ++ [[","]]), begins_cons h, fun s => (Spells.ident h).andThen ?_⟩
    exact spells_stop.before (hend s) (begins_cons (comma_ended rfl))
  | some reason =>
    obtain ⟨ps, hps⟩ := spells_deprecation reason
    refine ⟨[[value]] ++ ((["@"] :: ["deprecated"] :: ps ++ []) ++ [[","]]), begins_cons h, fun s =>
      (Spells.ident h).andThen ?_⟩
    refine (spells_directive (by decide) ?_ spells_stop).before (hend s) (begins_cons (comma_ended rfl))
    exact .labelled (by decide) (.no (by decide) (.no (by decide) hps.result))

theorem spells_enum {e : EnumDecl} (h : e.WellFormed) :
    ∃ ps, Spells Any (upTo "\x7d" enumValue ([], [])) (e.values, e.deprecated) ps := by
  obtain ⟨items, hvalues, hmarks⟩ := exists_marks h.deprecated
  have hidents : ∀ i ∈ items, isIdent i.1 = true := fun i hi => h.values i.1 (hvalues ▸ List.mem_map_of_mem hi)
  have hall : ∀ s : List String × List (String × Option String), ∃ ps, Spells Any (upTo "\x7d" enumValue s)
      (s.1 ++ items.map (·.1), s.2 ++ items.flatMap fun i =>
        (i.2.map fun reason => (i.1, reason)).toList) ps := by
    clear hvalues hmarks
    induction items with
    | nil =>
      intro s
      refine ⟨[["\x7d"]], ?_⟩
      simpa using Spells.close (s := s) (mark_piece (c := '\x7d') (by decide)) (by decide)
    | cons i items ih =>
      intro s
      obtain ⟨hi, hitems⟩ := List.forall_mem_cons.1 hidents
      obtain ⟨ps, hbegins, hps⟩ := spells_enumValue hi i.2
      obtain ⟨qs, hqs⟩ := ih hitems (s.1 ++ [i.1], s.2 ++ (i.2.map fun reason => (i.1, reason)).toList)
      simp only [List.append_assoc] at hqs
      exact ⟨ps ++ qs, Spells.item (hbegins.imp fun w hw => ne_of_isIdent hw (by decide))
        (hps s) hqs fun _ _ => trivial⟩
  obtain ⟨ps, hps⟩ := hall ([], [])
  rw [hvalues, hmarks] at hps
  exact ⟨ps, hps⟩

theorem ended_of_isIdent {w : String} (h : isIdent w = true) : Ended w :=
  ⟨ne_of_isIdent h (by decide), ne_of_isIdent h (by decide), ne_of_isIdent h (by decide)⟩

/-- The items of a model. -/
abbrev modelItems (finite : String → Bool) (abstractModel : Bool) (s : ModelBody) : Parser ModelBody :=
  upTo "\x7d" (modelItem finite abstractModel) s

theorem spells_modelFields (abstractModel : Bool) {fs : List FieldDecl}
    (h : ∀ f ∈ fs, f.WellFormed finite false) (s : ModelBody) :
    ∃ ps, Begins Ended ps ∧
      Spells Any (modelItems finite abstractModel s) { s with fields := s.fields ++ fs.map (·.unplaced) } ps := by
  obtain ⟨ps, hended, -, hps⟩ := spells_into (P := Ended) (mark_piece (c := '\x7d') (by decide)) (by decide)
    (by unfold Ended; decide) (fun acc => { s with fields := s.fields ++ acc })
    (modelItem finite abstractModel) FieldDecl.unplaced fs fun f hf => by
    obtain ⟨ps, hbegins, hps⟩ := (h f hf).spelled
    refine ⟨ps, hbegins.imp fun _ hw => ⟨ne_of_isIdent hw (by decide), ended_of_isIdent hw⟩, fun acc => ?_⟩
    refine .pos hbegins (.skip (hbegins.imp fun w hw => ne_of_isIdent hw (by decide))
      (.no Bool.false_ne_true ?_))
    rw [← List.append_assoc]
    exact hps.last .pure fun _ h => h
  have hfields := hps []
  rw [List.append_nil, List.nil_append] at hfields
  exact ⟨ps, hended, hfields⟩

/-- The rest of a model after one of its directives. -/
theorem spells_modelDirective {s u t : ModelBody} {attr : String} (hattr : isIdent attr = true)
    (h : ∃ ps, Spells Any (do
      if attr = "bootstrap" then
        if s.bootstrap then failAt {} "duplicate bootstrap"
        return { s with bootstrap := true }
      if attr = "version" then return { s with version := ← version s.versionSeen, versionSeen := true }
      need "("
      let fields ← names ")"
      if attr = "id" then
        if s.identity ≠ [] then fail "duplicate identity"
        return { s with identity := fields }
      else if attr = "unique" then return { s with unique := s.unique ++ [⟨fields, {}⟩] }
      else fail s!"unsupported model directive {attr}" : Parser ModelBody) u ps)
    (hloop : ∃ qs, Spells Any (modelItems finite false u) t qs) : ∃ qs,
      Spells Any (modelItems finite false s) t qs := by
  have hat : Spells Any (eat "@") true [["@"]] := .mark_eat (by decide)
  obtain ⟨ps, hps⟩ := h
  obtain ⟨qs, hqs⟩ := hloop
  refine ⟨[["@"]] ++ ([["@"]] ++ ([[attr]] ++ ps)) ++ qs,
    Spells.item (F := Any) (begins_cons (by decide)) ?_ hqs fun _ _ => trivial⟩
  refine .pos begins_any (hat.andThen (.yes rfl (.labelled hattr ?_)))
  exact .no Bool.false_ne_true hps

theorem spells_uniques {us : List UniqueDecl} (h : ∀ u ∈ us, ∀ n ∈ u.fields, isIdent n = true) {s t : ModelBody}
    (hloop : ∃ qs, Spells Any (modelItems finite false { s with unique := s.unique ++ us.map (·.unplaced) }) t qs) :
    ∃ qs, Spells Any (modelItems finite false s) t qs := by
  induction us generalizing s with
  | nil => simpa using hloop
  | cons u us ih =>
    obtain ⟨hu, hus⟩ := List.forall_mem_cons.1 h
    have hopen : Spells Any (need "(") () [["("]] := .mark (by decide)
    obtain ⟨ps, hps⟩ := spells_names ")" (mark_piece (c := ')') (by decide)) (by decide) (by decide)
      (by decide) hu
    refine spells_modelDirective (u := { s with unique := s.unique ++ [u.unplaced] })
      (show isIdent "unique" = true by decide) ?_
      (ih hus (by simpa using hloop))
    refine ⟨[["("]] ++ ps, .no (by decide) (.no (by decide) (hopen.andThen (hps.last ?_ fun _ _ => trivial)))⟩
    exact .no (by decide) (.yes rfl .pure)

theorem ModelDecl.WellFormed.body {m : ModelDecl} (h : m.WellFormed finite) :
    ∃ ps, Spells Any (modelItems finite m.abstractModel { version := m.version, versionSeen := !m.abstractModel })
      ⟨m.bootstrap, m.version, !m.abstractModel, m.identity, m.fields.map (·.unplaced),
        m.unique.map (·.unplaced)⟩ ps := by
  cases habstract : m.abstractModel with
  | true =>
    obtain ⟨-, hbootstrap, hidentity, hunique⟩ := h.bare habstract
    obtain ⟨ps, -, hps⟩ := spells_modelFields true h.fields { version := m.version, versionSeen := false }
    rw [hbootstrap, hidentity, hunique]
    exact ⟨ps, hps⟩
  | false =>
    -- the directives stand before the fields
    have hfields : ∃ qs, Spells Any (modelItems finite false
        { version := m.version, versionSeen := true, bootstrap := m.bootstrap, identity := m.identity,
          unique := m.unique.map (·.unplaced) })
        ⟨m.bootstrap, m.version, true, m.identity, m.fields.map (·.unplaced),
          m.unique.map (·.unplaced)⟩ qs := by
      obtain ⟨ps, -, hps⟩ := spells_modelFields false h.fields
        { version := m.version, versionSeen := true, bootstrap := m.bootstrap, identity := m.identity,
          unique := m.unique.map (·.unplaced) }
      exact ⟨ps, hps⟩
    have huniques := spells_uniques h.unique
      (s := { version := m.version, versionSeen := true, bootstrap := m.bootstrap,
              identity := m.identity }) hfields
    have hidentity : ∃ qs, Spells Any (modelItems finite false
      { version := m.version, versionSeen := true, bootstrap := m.bootstrap })
        ⟨m.bootstrap, m.version, true, m.identity, m.fields.map (·.unplaced),
          m.unique.map (·.unplaced)⟩ qs := by
      by_cases hnil : m.identity = []
      · simpa [hnil] using huniques
      · have hopen : Spells Any (need "(") () [["("]] := .mark (by decide)
        obtain ⟨ps, hps⟩ := spells_names ")" (mark_piece (c := ')') (by decide)) (by decide)
          (by decide) (by decide) h.identity
        refine spells_modelDirective (show isIdent "id" = true by decide) ?_ huniques
        refine ⟨[["("]] ++ ps, .no (by decide) (.no (by decide)
          (hopen.andThen (hps.last ?_ fun _ _ => trivial)))⟩
        exact .yes rfl (.no (not_not_intro rfl) .pure)
    cases hbootstrap : m.bootstrap with
    | false => simpa [hbootstrap] using hidentity
    | true =>
      rw [hbootstrap] at hidentity
      refine spells_modelDirective (show isIdent "bootstrap" = true by decide) ?_ hidentity
      exact ⟨[], .yes rfl (.no Bool.false_ne_true .pure)⟩

/-- The items of a mutation block. -/
abbrev mutationItems (s : MutationBody) : Parser MutationBody := upTo "\x7d" mutationItem s

theorem spells_mutationSlots {slots : List SlotDecl} (h : ∀ s ∈ slots, s.WellFormed) (s : MutationBody) :
    ∃ ps, Begins Ended ps ∧ Spells Any (mutationItems s) { s with slots := s.slots ++ slots.map (·.unplaced) } ps := by
  obtain ⟨ps, hended, -, hps⟩ := spells_into (P := Ended) (mark_piece (c := '\x7d') (by decide)) (by decide)
    (by unfold Ended; decide) (fun acc => { s with slots := s.slots ++ acc })
    mutationItem SlotDecl.unplaced slots fun slot hslot => by
    obtain ⟨ps, hbegins, hps⟩ := (h slot hslot).spelled
    refine ⟨ps, hbegins.imp fun _ hw => ⟨ne_of_isIdent hw (by decide), ended_of_isIdent hw⟩, fun acc => ?_⟩
    refine .pos hbegins (.skip (hbegins.imp fun w hw => ne_of_isIdent hw (by decide))
      (.no Bool.false_ne_true ?_))
    rw [← List.append_assoc]
    exact hps.last .pure fun _ h => h
  have hslots := hps []
  rw [List.append_nil, List.nil_append] at hslots
  exact ⟨ps, hended, hslots⟩

theorem MutationDecl.WellFormed.body {m : MutationDecl} (h : m.WellFormed) :
    ∃ ps, Spells Any (mutationItems {}) ⟨m.version, true, m.sequence.map (·.unplaced),
    m.slots.map (·.unplaced)⟩ ps := by
  have hat : Spells Any (eat "@") true [["@"]] := .mark_eat (by decide)
  have hrest : ∃ ps, Spells Any (mutationItems { version := m.version, versionSeen := true })
      ⟨m.version, true, m.sequence.map (·.unplaced), m.slots.map (·.unplaced)⟩ ps := by
    obtain ⟨qs, -, hqs⟩ := spells_mutationSlots h.slots
      { version := m.version, versionSeen := true, sequence := m.sequence.map (·.unplaced) }
    cases hsequence : m.sequence with
    | none =>
      rw [hsequence] at hqs
      exact ⟨qs, hqs⟩
    | some sequence =>
      rw [hsequence] at hqs
      obtain ⟨ps, hps⟩ := (h.sequence sequence hsequence).spelled
      refine ⟨[["@"]] ++ ([["@"]] ++ ([["sequence"]] ++ (["("] :: ps))) ++ qs,
        Spells.item (F := Any) (begins_cons (by decide)) ?_ hqs fun _ _ => trivial⟩
      refine .pos begins_any (hat.andThen (.yes rfl (.labelled (by decide) ?_)))
      exact .yes rfl hps.result
  obtain ⟨qs, hqs⟩ := hrest
  refine ⟨[["@"]] ++ ([["@"]] ++ ([["version"]] ++ [["("], [toString m.version], [")"]])) ++ qs,
    Spells.item (F := Any) (begins_cons (by decide)) ?_ hqs fun _ _ => trivial⟩
  refine .pos begins_any (hat.andThen (.yes rfl (.labelled (by decide) ?_)))
  exact .no (by decide) (.no (by decide) (spells_version h.version).result)

theorem PrerequisiteDecl.WellFormed.body {p : PrerequisiteDecl} (h : p.WellFormed) :
    ∃ ps, Spells Any (upTo ")" prerequisiteField []) (p.fields.map (·.unplaced)) ps := by
  obtain ⟨ps, -, hps⟩ := spells_items (mark_piece (c := ')') (by decide)) (by decide)
    prerequisiteField PrerequisiteField.unplaced p.fields fun f hf => by
    obtain ⟨hname, htype⟩ := h.fields f hf
    have hcomma : Spells Any (comma ")") () [[","]] := .comma (by decide)
    refine ⟨[[f.name]] ++ ([[f.typeName]] ++ [[","]]),
      begins_cons (ne_of_isIdent hname (by decide)), fun acc => ?_⟩
    refine .pos begins_any ((Spells.ident hname).andThen ((Spells.ident htype).andThen ?_))
    exact hcomma.result
  exact ⟨ps, hps []⟩

/-! ### Declarations -/

theorem LoadDecl.WellFormed.rest {l : LoadDecl} (h : l.WellFormed finite) :
    ∃ ps, Spells Any (loadRest finite ⟨l.version, true, none⟩ l.name {}) l.unplaced ps := by
  have hopen : Spells Any (need "\x7b") () [["\x7b"]] := .mark (by decide)
  obtain ⟨ps, hps⟩ := spells_inputs h.inputs
  obtain ⟨qs, hbegins, hqs⟩ := spells_outputs h.outputs
  refine ⟨(["("] :: ps) ++ ([["\x7b"]] ++ qs), hps.andThen ?_⟩
  refine .peek (P := (· = "\x7b")) (begins_cons rfl) fun w hw => .no (not_not_intro hw) (hopen.andThen ?_)
  refine .peek (hbegins h.some) fun w hw => .no hw ?_
  exact hqs.result

theorem ActionDecl.WellFormed.rest {a : ActionDecl} (h : a.WellFormed finite) :
    ∃ ps, Spells Any (operationRest finite ⟨a.version, true,
    a.sequence.map (·.unplaced)⟩ a.kind a.name {}) a.unplaced (["("] :: ps) := by
  have hopen : Spells Any (eat "\x7b") true [["\x7b"]] := .mark_eat (by decide)
  obtain ⟨ps, hps⟩ := spells_inputs h.inputs
  obtain ⟨qs, -, hqs⟩ := spells_outputs h.outputs
  refine ⟨ps ++ ([["\x7b"]] ++ qs), ?_⟩
  refine Spells.andThen hps (hopen.andThen (.yes rfl ?_))
  exact hqs.result

/-- A declaration after its directives, its kind and its name. -/
theorem spells_declaration {leading : Leading} {lead qs : List (List String)}
    (hlead : Spells (Next (· ≠ "@")) (leadingDirectives {}) leading lead) {kind name : String}
    (hkind : isIdent kind = true)
    (haction : kind ≠ "action") (habstract : kind ≠ "abstract") (hname : isIdent name = true)
    {d d' : Declarations}
    (h : Spells Any (declarationRest finite leading kind name false {} d) d' qs) :
    Spells Any (declaration finite d) d' (lead ++ ([[kind]] ++ ([[name]] ++ qs))) := by
  refine hlead.before (.peek (P := (· = kind)) (begins_cons rfl) fun w hw => ?_)
    (begins_cons (ne_of_isIdent hkind (by decide)))
  refine .no (fun h => ne_of_isIdent hkind (by decide) (hw ▸ h.1))
    (.pos begins_any ?_)
  refine .peek (P := (· = kind)) (begins_cons rfl) fun w hw =>
    .no (hw ▸ haction) (.skip (begins_cons habstract) ?_)
  refine .no Bool.false_ne_true (.no Bool.false_ne_true ?_)
  exact (Spells.take (isIdent_piece hkind) (ne_of_isIdent hkind (by decide))).andThen
    ((Spells.ident hname).andThen h)

theorem spells_abstract {name : String} (hname : isIdent name = true) {d d' : Declarations}
    {qs : List (List String)}
    (h : Spells Any (declarationRest finite {} "model" name true {} d) d' qs) :
    Spells Any (declaration finite d) d' ([["abstract"]] ++ ([["model"]] ++ ([[name]] ++ qs))) := by
  have hword : Spells Any (eat "abstract") true [["abstract"]] := .eat (isIdent_piece (by decide)) (by decide)
  have hmodel : Spells Any (need "model") () [["model"]] :=
    (Spells.eat (isIdent_piece (by decide)) (by decide)).last (.yes rfl .pure) fun _ h => h
  have hlead : Spells (Next (· ≠ "@")) (leadingDirectives {}) {} [] := spells_noLeading
  refine hlead.lookahead (.peek (P := (· = "abstract")) (begins_cons rfl) fun w hw => ?_)
    (begins_cons (by decide))
  refine .no (fun h => absurd (hw ▸ h.1) (by decide)) (.pos begins_any ?_)
  refine .peek (P := (· = "abstract")) (begins_cons rfl) fun w hw => .no (hw ▸ by decide) (hword.andThen ?_)
  exact .yes rfl (hmodel.andThen (.yes rfl ((Spells.ident hname).andThen h).given))

/-- The loop over declarations, before the end of the source. -/
abbrev declarationItems (finite : String → Bool) (d : Declarations) : Parser Declarations :=
  Scan.loop (return decide ((← Parser.peek) ≠ eof)) (declaration finite) d

/-- The declarations of one kind, before the rest of them. -/
theorem spells_kind {γ δ : Type} (put : List δ → Declarations) (f : γ → δ) {xs : List γ}
    (h : ∀ x ∈ xs, ∀ ys, ∃ ps, Begins (· ≠ eof) ps ∧ Spells Any (declaration finite (put ys)) (put (ys ++ [f x])) ps)
    {t : Declarations} (hrest : ∀ ys, ys = xs.map f → ∃ qs,
    Spells (Next (· = eof)) (declarationItems finite (put ys)) t qs) :
    ∃ qs, Spells (Next (· = eof)) (declarationItems finite (put [])) t qs := by
  have hall : ∀ (zs : List γ) ys, (∀ z ∈ zs, z ∈ xs) → ys ++ zs.map f = xs.map f →
      ∃ qs, Spells (Next (· = eof)) (declarationItems finite (put ys)) t qs := by
    intro zs
    induction zs with
    | nil => exact fun ys _ hys => hrest ys (by simpa using hys)
    | cons z zs ih =>
      intro ys hzs hys
      obtain ⟨hz, hzs⟩ := List.forall_mem_cons.1 hzs
      obtain ⟨ps, hbegins, hps⟩ := h z hz ys
      obtain ⟨qs, hqs⟩ := ih (ys ++ [f z]) hzs (by simpa using hys)
      refine ⟨ps ++ qs, hps.proper_append hqs, ?_⟩
      rw [written_append]
      refine Reads.round (fun rest => ?_) hbegins.written_ne_nil hps.reads hqs.reads fun _ _ => trivial
      obtain ⟨t, ts, heq, ht⟩ := hbegins.next rest
      rw [heq]
      simp [Parser.peek, token, ht]
  exact hall xs [] (fun _ h => h) rfl

/-- A declaration with braces, after its kind and its name. -/
theorem spells_block {leading : Leading} {kind name : String} {abstractModel : Bool} {parent : Option String}
    (hload : kind ≠ "load") (hprerequisite : kind ≠ "prerequisite")
    (hleading : kind = "model" ∧ leading.sequence = none ∨ leading.versionSeen = false ∧
    leading.sequence = none)
    (hbare : ¬ (abstractModel = true ∧ leading.versionSeen = true))
    (hoperation : Spells (Next (· ≠ "(")) (operationKind kind) none [])
    {ps qs : List (List String)} (hleads : Leads (· = "extends") ps)
    (hparent : Spells (Next (· = "\x7b")) (parentName kind) parent ps)
    {d d' : Declarations} (h : Spells Any (blockRest finite leading kind name abstractModel parent {} d) d' qs) :
    Spells Any (declarationRest finite leading kind name abstractModel {} d) d' (ps ++ ([["\x7b"]] ++ qs)) := by
  have hopen : Spells Any (need "\x7b") () [["\x7b"]] := .mark (by decide)
  have hbegins : Begins (· ≠ "(") (ps ++ ([["\x7b"]] ++ qs)) :=
    hleads.begins (by rintro w rfl; decide) (begins_cons (by decide))
  refine hoperation.lookahead (.no ?_ (.no ?_ (.no hload (.no hprerequisite ?_)))) hbegins
  · rcases hleading with ⟨rfl, -⟩ | ⟨hseen, hsequence⟩
    · simp
    · simp [hseen, hsequence]
  · rcases hleading with ⟨-, hsequence⟩ | ⟨-, hsequence⟩ <;> simp [hsequence]
  · exact hparent.before (.no hbare (hopen.andThen h)) (begins_cons rfl)

theorem spells_kindless {kind : String} (hquery : kind ≠ "query") (hmutation : kind ≠ "mutation") :
    Spells (Next (· ≠ "(")) (operationKind kind) none [] := .no hquery (.no hmutation .pure)

theorem spells_orphan {kind : String} (h : kind ≠ "model") :
    Spells (Next (· = "\x7b")) (parentName kind) none [] := .no h .pure

theorem spells_parent {parent : Option String} (h : ∀ p ∈ parent, isIdent p = true) :
    ∃ ps, Leads (· = "extends") ps ∧ Spells (Next (· = "\x7b")) (parentName "model") parent ps := by
  cases parent with
  | none =>
    have hnot : Spells (Next (· ≠ "extends")) (eat "extends") false [] := .eatNot
    refine ⟨[], .inl rfl, ?_⟩
    unfold parentName
    refine .yes rfl (hnot.last (.no Bool.false_ne_true .pure) fun rest hrest => ?_)
    exact hrest.imp fun w hw => hw ▸ by decide
  | some parent =>
    have hword : Spells Any (eat "extends") true [["extends"]] := .eat (isIdent_piece (by decide)) (by decide)
    refine ⟨[["extends"]] ++ [[parent]], .inr (begins_cons rfl), ?_⟩
    unfold parentName
    refine .yes rfl (hword.andThen (.yes rfl ?_))
    exact (Spells.ident (h parent rfl)).result

theorem EnumDecl.WellFormed.declared {e : EnumDecl} (h : e.WellFormed) (d : Declarations) :
    ∃ ps, Begins (· ≠ eof) ps ∧
    Spells Any (declaration finite d) { d with enums := d.enums ++ [e.unplaced] } ps := by
  obtain ⟨ps, hps⟩ := spells_enum h
  refine ⟨[] ++ ([["enum"]] ++ ([[e.name]] ++ ([] ++ ([["\x7b"]] ++ ps)))), begins_cons (by decide), ?_⟩
  refine spells_declaration spells_noLeading (by decide) (by decide) (by decide) h.name ?_
  refine spells_block (by decide) (by decide) (.inr ⟨rfl, rfl⟩) (by simp)
    (spells_kindless (by decide) (by decide)) (.inl rfl)
    (spells_orphan (by decide)) ?_
  exact .yes rfl (hps.last .pure fun _ _ => trivial)

theorem ModelDecl.WellFormed.declared {m : ModelDecl} (h : m.WellFormed finite) (d : Declarations) :
    ∃ ps, Begins (· ≠ eof) ps ∧
    Spells Any (declaration finite d) { d with models := d.models ++ [m.unplaced] } ps := by
  obtain ⟨ps, hps⟩ := h.body
  obtain ⟨rs, hleads, hrs⟩ := spells_parent h.parent
  have hblock : ∀ leading : Leading, leading = ⟨m.version, !m.abstractModel, none⟩ →
      Spells Any (declarationRest finite leading "model" m.name m.abstractModel {} d)
      { d with models := d.models ++ [m.unplaced] }
        (rs ++ ([["\x7b"]] ++ ps)) := by
    rintro leading rfl
    refine spells_block (by decide) (by decide) (.inl ⟨rfl, rfl⟩) (by simp)
      (spells_kindless (by decide) (by decide)) hleads hrs ?_
    exact .no (by decide) (.yes rfl (hps.last .pure fun _ _ => trivial))
  cases habstract : m.abstractModel with
  | true =>
    rw [habstract] at hblock
    have hversion : m.version = 1 := (h.bare habstract).1
    exact ⟨_, begins_cons (by decide), spells_abstract h.name (hblock {} (by rw [hversion]; rfl))⟩
  | false =>
    rw [habstract] at hblock
    obtain ⟨qs, hbegins, hqs⟩ := spells_leading h.version none (by simp)
    exact ⟨_, (hbegins.imp fun w hw => hw ▸ by decide).append _,
      spells_declaration hqs (show isIdent "model" = true by decide) (by decide) (by decide) h.name
      (hblock _ rfl)⟩

theorem MutationDecl.WellFormed.declared {m : MutationDecl} (h : m.WellFormed) (d : Declarations) :
    ∃ ps, Begins (· ≠ eof) ps ∧
    Spells Any (declaration finite d) { d with mutations := d.mutations ++ [m.unplaced] } ps := by
  obtain ⟨ps, hps⟩ := h.body
  refine ⟨[] ++ ([["mutation"]] ++ ([[m.name]] ++ ([] ++ ([["\x7b"]] ++ ps)))), begins_cons (by decide), ?_⟩
  refine spells_declaration spells_noLeading (by decide) (by decide) (by decide) h.name ?_
  refine spells_block (by decide) (by decide) (.inr ⟨rfl, rfl⟩) (by simp)
    (.no (by decide) (.yes rfl (.peekNext fun w hw => .no hw .pure))) (.inl rfl) (spells_orphan (by decide)) ?_
  exact .no (by decide) (.no (by decide) (.yes rfl (hps.last .pure fun _ _ => trivial)))

theorem LoadDecl.WellFormed.declared {l : LoadDecl} (h : l.WellFormed finite) (d : Declarations) :
    ∃ ps, Begins (· ≠ eof) ps ∧
    Spells Any (declaration finite d) { d with loads := d.loads ++ [l.unplaced] } ps := by
  obtain ⟨ps, hps⟩ := h.rest
  obtain ⟨qs, hbegins, hqs⟩ := spells_leading h.version none (by simp)
  have hkind : Spells Any (operationKind "load") none [] := .no (by decide) (.no (by decide) .pure)
  have hrest : Spells Any (declarationRest finite ⟨l.version, true, none⟩ "load" l.name false {} d)
      { d with loads := d.loads ++ [l.unplaced] } ps :=
    hkind.silent (.no (by simp) (.no (by simp) (.yes rfl hps.result)))
  exact ⟨_, (hbegins.imp fun w hw => hw ▸ by decide).append _,
    spells_declaration hqs (show isIdent "load" = true by decide) (by decide) (by decide) h.name hrest⟩

theorem ActionDecl.WellFormed.declared {a : ActionDecl} (h : a.WellFormed finite) (d : Declarations) :
    ∃ ps, Begins (· ≠ eof) ps ∧
    Spells Any (declaration finite d) { d with actions := d.actions ++ [a.unplaced] } ps := by
  obtain ⟨ps, hps⟩ := h.rest
  obtain ⟨qs, hbegins, hqs⟩ := spells_leading h.version a.sequence h.sequence
  cases hkind : a.kind with
  | query =>
    rw [hkind] at hps
    have hquery : Spells Any (operationKind "query") (some .query) [] := .yes rfl .pure
    have hrest : Spells Any (declarationRest finite ⟨a.version, true,
      a.sequence.map (·.unplaced)⟩ "query" a.name false {} d)
        { d with actions := d.actions ++ [a.unplaced] } (["("] :: ps) :=
      hquery.silent (.no (by simp) (.no (by simp) (.no (by decide) hps.result)))
    exact ⟨_, (hbegins.imp fun w hw => hw ▸ by decide).append _,
      spells_declaration hqs (show isIdent "query" = true by decide) (by decide) (by decide) h.name hrest⟩
  | mutation =>
    rw [hkind] at hps
    have hmutation : Spells (Next (· = "(")) (operationKind "mutation") (some .mutation) [] :=
      .no (by decide) (.yes rfl (.peekNext fun w hw => .yes hw .pure))
    have hrest : Spells Any (declarationRest finite ⟨a.version, true,
      a.sequence.map (·.unplaced)⟩ "mutation" a.name false {} d)
        { d with actions := d.actions ++ [a.unplaced] } (["("] :: ps) :=
      hmutation.lookahead (.no (by simp) (.no (by simp) (.no (by decide) hps.result))) (begins_cons rfl)
    exact ⟨_, (hbegins.imp fun w hw => hw ▸ by decide).append _,
      spells_declaration hqs (show isIdent "mutation" = true by decide) (by decide) (by decide) h.name hrest⟩

theorem PrerequisiteDecl.WellFormed.declared {p : PrerequisiteDecl} (h : p.WellFormed)
    (d : Declarations) : ∃ ps, Begins (· ≠ eof) ps ∧
    Spells Any (declaration finite d) { d with prerequisites := d.prerequisites ++ [p.unplaced] } ps := by
  have hopen : Spells Any (need "(") () [["("]] := .mark (by decide)
  obtain ⟨ps, hps⟩ := h.body
  refine ⟨[] ++ ([["prerequisite"]] ++ ([[p.name]] ++ ([["("]] ++ ps))), begins_cons (by decide), ?_⟩
  refine spells_declaration spells_noLeading (by decide) (by decide) (by decide) h.name ?_
  have hkind : Spells Any (operationKind "prerequisite") none [] := .no (by decide) (.no (by decide) .pure)
  refine hkind.silent (.no (by simp) (.no (by decide) (.no (by decide) (.yes rfl (hopen.andThen ?_)))))
  exact hps.result

theorem spells_declarations {d : Declarations} (h : d.WellFormed finite) :
    ∃ ps, Spells (Next (· = eof)) (declarationItems finite {}) d.unplaced ps := by
  let enums := d.enums.map (·.unplaced)
  let models := d.models.map (·.unplaced)
  let mutations := d.mutations.map (·.unplaced)
  let actions := d.actions.map (·.unplaced)
  let loads := d.loads.map (·.unplaced)
  refine spells_kind (fun ys => ⟨ys, [], [], [], [], [], {}⟩) EnumDecl.unplaced
    (fun e he ys => (h.enums e he).declared _) ?_
  rintro _ rfl
  refine spells_kind (fun ys => ⟨enums, ys, [], [], [], [], {}⟩) ModelDecl.unplaced
    (fun m hm ys => (h.models m hm).declared _) ?_
  rintro _ rfl
  refine spells_kind (fun ys => ⟨enums, models, ys, [], [], [], {}⟩) MutationDecl.unplaced
    (fun m hm ys => (h.mutations m hm).declared _) ?_
  rintro _ rfl
  refine spells_kind (fun ys => ⟨enums, models, mutations, ys, [], [], {}⟩) ActionDecl.unplaced
    (fun a ha ys => (h.actions a ha).declared _) ?_
  rintro _ rfl
  refine spells_kind (fun ys => ⟨enums, models, mutations, actions, ys, [], {}⟩) LoadDecl.unplaced
    (fun l hl ys => (h.loads l hl).declared _) ?_
  rintro _ rfl
  refine spells_kind (fun ys => ⟨enums, models, mutations, actions, loads, ys, {}⟩) PrerequisiteDecl.unplaced
    (fun p hp ys => (h.prerequisites p hp).declared _) ?_
  rintro _ rfl
  refine ⟨[], by simp, fun rest hrest => loop_stop ?_⟩
  obtain ⟨t, ts, rfl, ht⟩ := hrest
  simp [Parser.peek, token, ht]

/-- The declarations of well-formed pieces are read back. -/
theorem parse_written {d : Declarations} (h : d.WellFormed finite) :
    ∃ source e, parse finite source = .ok e ∧ e.unplaced = d.unplaced := by
  obtain ⟨ps, hps⟩ := spells_declarations h
  have hrun : (declarations finite).run (written ps ++ [⟨eof, 0, 0⟩]) = .ok (d.unplaced, [⟨eof, 0, 0⟩]) := by
    unfold declarations
    rw [run_bind_ok (hps.reads [⟨eof, 0, 0⟩] ⟨_, _, rfl, rfl⟩)]
    rfl
  obtain ⟨e, he, hunplaced⟩ := parse_text hps.proper hrun
  refine ⟨_, e, he, hunplaced.trans ?_⟩
  exact Declarations.unplaced_unplaced d

end

/-! ## What a source declares -/

/-- **Exactly the well-formed declarations can be declared.** Whatever a source declares is well formed, and for well-formed
declarations there is a source that declares them, positions aside. -/
theorem parse_exact (finite : String → Bool) (d : Declarations) :
    (∃ source e, parse finite source = .ok e ∧ e.unplaced = d.unplaced) ↔ d.WellFormed finite := by
  constructor
  · rintro ⟨source, e, he, hunplaced⟩
    rw [← d.wellFormed_unplaced finite, ← hunplaced, e.wellFormed_unplaced finite]
    exact parse_wellFormed he
  · exact parse_written

end Axton.Compiler
