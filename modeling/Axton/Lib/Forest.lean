import Mathlib.Data.Finset.Card
import Mathlib.Data.Finset.Range

/-!
# Disjoint sets with path halving

A list of parents, each element its own parent at first. `root` follows the parents and halves the path on its
way; `union` hangs one root under another, whatever their sizes. The loop is bounded by the number of elements,
which is enough: every union that joins two classes makes the trees at most one deeper and the roots one fewer.

The class view is what other modules use: a forest has a representative for each element, `root` finds it and
changes no representative, and `union` joins two classes and splits none.
-/

namespace Axton

/-- Follow parents, halving the path. -/
def root : Nat → List Nat → Nat → List Nat × Nat
  | 0, ids, i => (ids, i)
  | fuel + 1, ids, i =>
    if ids.getD i i = i then (ids, i)
    else
      let up := ids.getD (ids.getD i i) i
      root fuel (ids.set i up) up

/-- Hang the root of `b` under the root of `a`. -/
def union (ids : List Nat) (a b : Nat) : List Nat :=
  let (ids, a) := root ids.length ids a
  let (ids, b) := root ids.length ids b
  ids.set b a

theorem length_root (fuel : Nat) (ids : List Nat) (i : Nat) : (root fuel ids i).1.length = ids.length := by
  induction fuel generalizing ids i with
  | zero => rfl
  | succ fuel ih =>
    unfold root
    split
    · rfl
    · rw [ih, List.length_set]

theorem length_union (ids : List Nat) (a b : Nat) : (union ids a b).length = ids.length := by
  simp only [union, List.length_set, length_root]

namespace Forest

/-- The parent of an element. -/
def parent (ids : List Nat) (i : Nat) : Nat := ids.getD i i

/-- The roots. -/
def roots (ids : List Nat) : Finset Nat := (Finset.range ids.length).filter fun i => parent ids i = i

theorem mem_roots {ids : List Nat} {i : Nat} : i ∈ roots ids ↔ i < ids.length ∧ parent ids i = i := by
  simp [roots]

theorem parent_set {ids : List Nat} {i x : Nat} (hi : i < ids.length) (j : Nat) :
    parent (ids.set i x) j = if j = i then x else parent ids j := by
  unfold parent
  rw [List.getD_eq_getElem?_getD, List.getElem?_set]
  by_cases h : j = i
  · subst h
    simp [hi]
  · have h' : i ≠ j := fun he => h he.symm
    simp [h, h', List.getD_eq_getElem?_getD]

end Forest

open Forest

/-- A list of parents is a forest: `rep` gives the root of each element, and `depth` falls on the way to it and
leaves room for as many unions as there are roots. -/
structure Forest (ids : List Nat) (rep depth : Nat → Nat) : Prop where
  parent_lt : ∀ i < ids.length, parent ids i < ids.length
  rep_lt : ∀ i < ids.length, rep i < ids.length
  rep_root : ∀ i < ids.length, parent ids (rep i) = rep i
  rep_parent : ∀ i < ids.length, rep (parent ids i) = rep i
  rep_self : ∀ i < ids.length, parent ids i = i → rep i = i
  depth_root : ∀ i < ids.length, parent ids i = i → depth i = 0
  depth_parent : ∀ i < ids.length, parent ids i ≠ i → depth (parent ids i) < depth i
  bounded : ∀ i < ids.length, depth i + (roots ids).card ≤ ids.length

namespace Forest

variable {ids : List Nat} {rep depth : Nat → Nat}

/-- Elements alone. -/
theorem range (n : Nat) : Forest (List.range n) (fun i => i) (fun _ => 0) := by
  have hself : ∀ i, parent (List.range n) i = i := by
    intro i
    unfold parent
    rw [List.getD_eq_getElem?_getD]
    by_cases h : i < n
    · simp [h]
    · simp [h]
  refine ⟨fun i h => by rw [hself]; exact h, fun i h => h, fun i _ => hself i, fun i _ => hself i, fun _ _ _ => rfl,
    fun _ _ _ => rfl, fun i _ hne => absurd (hself i) hne, fun i _ => ?_⟩
  have hcard : (roots (List.range n)).card ≤ (Finset.range (List.range n).length).card := Finset.card_filter_le _ _
  rw [Finset.card_range] at hcard
  omega

/-- An element that is no root may hang under an ancestor of its own. -/
theorem rehang (h : Forest ids rep depth) {i up : Nat} (hi : i < ids.length) (hne : parent ids i ≠ i)
    (hup : up < ids.length) (hrep : rep up = rep i) (hdepth : depth up < depth i) : Forest (ids.set i up) rep depth := by
  have hparent := parent_set (x := up) hi
  have hroots : roots (ids.set i up) = roots ids := by
    ext j
    rw [mem_roots, mem_roots, List.length_set, hparent]
    by_cases hj : j = i
    · subst hj
      rw [if_pos rfl]
      have hup' : up ≠ j := by
        rintro rfl
        omega
      simp [hup', hne]
    · rw [if_neg hj]
  have hlen : (ids.set i up).length = ids.length := List.length_set
  refine ⟨?_, ?_, ?_, ?_, ?_, ?_, ?_, ?_⟩
  all_goals
    rw [hlen]
    intro j hj
  · rw [hparent]
    split
    · exact hup
    · exact h.parent_lt j hj
  · exact h.rep_lt j hj
  · rw [hparent]
    split
    · -- a representative is a root, and this element is none
      rename_i hji
      exact absurd (hji ▸ h.rep_root j hj) hne
    · exact h.rep_root j hj
  · rw [hparent]
    split
    · rename_i hji
      rw [hji]
      exact hrep
    · exact h.rep_parent j hj
  · rw [hparent]
    split
    · rename_i hji
      intro hself
      rw [hji] at hself
      rw [hself] at hdepth
      omega
    · exact h.rep_self j hj
  · rw [hparent]
    split
    · rename_i hji
      intro hself
      rw [hji] at hself
      rw [hself] at hdepth
      omega
    · exact h.depth_root j hj
  · rw [hparent]
    split
    · rename_i hji
      intro _
      rw [hji]
      exact hdepth
    · exact h.depth_parent j hj
  · rw [hroots]
    exact h.bounded j hj

/-- Halving. -/
theorem up (h : Forest ids rep depth) {i : Nat} (hi : i < ids.length) (hne : parent ids i ≠ i) :
    parent ids (parent ids i) < ids.length ∧ rep (parent ids (parent ids i)) = rep i ∧
      depth (parent ids (parent ids i)) < depth i := by
  have hp := h.parent_lt i hi
  refine ⟨h.parent_lt _ hp, by rw [h.rep_parent _ hp, h.rep_parent i hi], ?_⟩
  have hstep := h.depth_parent i hi hne
  by_cases hroot : parent ids (parent ids i) = parent ids i
  · rw [hroot]
    exact hstep
  · exact lt_trans (h.depth_parent _ hp hroot) hstep

/-- **`root` finds the representative**, keeps every representative and flattens nothing that is flat. -/
theorem root_spec {fuel i : Nat} (h : Forest ids rep depth) (hi : i < ids.length) (hfuel : depth i ≤ fuel) :
    (root fuel ids i).2 = rep i ∧ Forest (root fuel ids i).1 rep depth ∧
      ∀ j < ids.length, parent ids j = rep j → parent (root fuel ids i).1 j = rep j := by
  induction fuel generalizing ids i with
  | zero =>
    have hroot : parent ids i = i := by
      by_contra hne
      have := h.depth_parent i hi hne
      omega
    exact ⟨(h.rep_self i hi hroot).symm, h, fun _ _ hj => hj⟩
  | succ fuel ih =>
    unfold root
    by_cases hroot : ids.getD i i = i
    · rw [if_pos hroot]
      exact ⟨(h.rep_self i hi hroot).symm, h, fun _ _ hj => hj⟩
    · rw [if_neg hroot]
      have hne : parent ids i ≠ i := hroot
      have hp := h.parent_lt i hi
      have hup : ids.getD (ids.getD i i) i = parent ids (parent ids i) := by
        unfold parent at hp ⊢
        generalize ids.getD i i = p at hp
        simp [List.getD_eq_getElem?_getD, hp]
      rw [hup]
      obtain ⟨hlt, hrep, hdepth⟩ := h.up hi hne
      have halved := h.rehang hi hne hlt hrep hdepth
      obtain ⟨hr, hforest, hflat⟩ := ih halved (by rw [List.length_set]; exact hlt) (by omega)
      refine ⟨hr.trans hrep, hforest, fun j hj hflatj => ?_⟩
      refine hflat j (by rw [List.length_set]; exact hj) ?_
      rw [parent_set hi]
      split
      · -- a flat element's parent is a root already
        rename_i hji
        subst hji
        rw [hflatj]
        exact h.rep_root j hj
      · exact hflatj

theorem depth_le (h : Forest ids rep depth) {i : Nat} (hi : i < ids.length) : depth i ≤ ids.length := by
  have := h.bounded i hi
  omega

/-- Two roots: hang one under the other. -/
theorem hang (h : Forest ids rep depth) {a b : Nat} (ha : a ∈ roots ids) (hb : b ∈ roots ids) (hne : b ≠ a) :
    Forest (ids.set b a) (fun j => if rep j = b then a else rep j) (fun j => if rep j = b then depth j + 1 else depth j) := by
  rw [mem_roots] at ha hb
  obtain ⟨ha, hra⟩ := ha
  obtain ⟨hb, hrb⟩ := hb
  have hparent := parent_set (x := a) hb
  have hrepa := h.rep_self a ha hra
  have hrepb := h.rep_self b hb hrb
  have hroots : roots (ids.set b a) = (roots ids).erase b := by
    ext j
    rw [Finset.mem_erase, mem_roots, mem_roots, List.length_set, hparent]
    by_cases hj : j = b
    · subst hj
      simp [hne.symm]
    · simp [hj]
  have hcard : (roots (ids.set b a)).card + 1 = (roots ids).card := by
    rw [hroots]
    exact Finset.card_erase_add_one (mem_roots.2 ⟨hb, hrb⟩)
  have hlen : (ids.set b a).length = ids.length := List.length_set
  refine ⟨?_, ?_, ?_, ?_, ?_, ?_, ?_, ?_⟩
  all_goals
    rw [hlen]
    intro j hj
  · rw [hparent]
    split
    · exact ha
    · exact h.parent_lt j hj
  · split
    · exact ha
    · exact h.rep_lt j hj
  · rw [hparent]
    split
    · rw [if_neg hne.symm]
      exact hra
    · exact h.rep_root j hj
  · rw [hparent]
    split
    · rename_i hjb
      rw [hrepa, if_neg hne.symm, hjb, hrepb, if_pos rfl]
    · rw [h.rep_parent j hj]
  · rw [hparent]
    split
    · rename_i hjb
      intro haj
      exact absurd (haj.trans hjb).symm hne
    · rename_i hjb
      intro hself
      have hrepj := h.rep_self j hj hself
      rw [hrepj, if_neg hjb]
  · rw [hparent]
    split
    · rename_i hjb
      intro haj
      exact absurd (haj.trans hjb).symm hne
    · rename_i hjb
      intro hself
      rw [h.rep_self j hj hself, if_neg hjb]
      exact h.depth_root j hj hself
  · rw [hparent]
    split
    · rename_i hjb
      intro _
      rw [hrepa, if_neg hne.symm, hjb, hrepb, if_pos rfl, h.depth_root a ha hra]
      omega
    · intro hself
      have := h.depth_parent j hj hself
      rw [h.rep_parent j hj]
      split <;> omega
  · have := h.bounded j hj
    split <;> omega

end Forest

/-- The classes of a forest. -/
def Classes (ids : List Nat) (rep : Nat → Nat) : Prop := ∃ depth, Forest ids rep depth

/-- `rep'` joins what `rep` joins. -/
def Coarser (rep rep' : Nat → Nat) : Prop := ∀ i j, rep i = rep j → rep' i = rep' j

theorem Coarser.refl (rep : Nat → Nat) : Coarser rep rep := fun _ _ h => h

theorem Coarser.trans {r r' r'' : Nat → Nat} (h : Coarser r r') (h' : Coarser r' r'') : Coarser r r'' :=
  fun i j hij => h' i j (h i j hij)

theorem classes_range (n : Nat) : Classes (List.range n) (fun i => i) := ⟨_, Forest.range n⟩

/-- `rep'` joins the classes of `a` and `b`, splits none and joins no other. -/
structure Merged (rep rep' : Nat → Nat) (a b : Nat) : Prop where
  coarser : Coarser rep rep'
  joined : rep' a = rep' b
  only : ∀ i j, rep' i = rep' j → rep i = rep j ∨ rep i = rep a ∧ rep j = rep b ∨ rep i = rep b ∧ rep j = rep a

/-- An equivalence that has the classes and the new pair has the joined classes. -/
theorem Merged.sound {rep rep' : Nat → Nat} {a b : Nat} (h : Merged rep rep' a b) {E : Nat → Nat → Prop}
    (hE : Equivalence E) (hsound : ∀ i j, rep i = rep j → E i j) (hab : E a b) : ∀ i j, rep' i = rep' j → E i j := by
  intro i j hij
  rcases h.only i j hij with hsame | ⟨hi, hj⟩ | ⟨hi, hj⟩
  · exact hsound i j hsame
  · exact hE.trans (hsound i a hi) (hE.trans hab (hE.symm (hsound j b hj)))
  · exact hE.trans (hsound i b hi) (hE.trans (hE.symm hab) (hE.symm (hsound j a hj)))

/-- **`union` joins two classes**, splits none and joins no other. -/
theorem union_classes {ids : List Nat} {rep : Nat → Nat} {a b : Nat} (h : Classes ids rep) (ha : a < ids.length)
    (hb : b < ids.length) : ∃ rep', Classes (union ids a b) rep' ∧ Merged rep rep' a b := by
  obtain ⟨depth, forest⟩ := h
  obtain ⟨hra, forest₁, -⟩ := forest.root_spec ha (forest.depth_le ha)
  have hlen₁ := length_root ids.length ids a
  have hb₁ : b < (root ids.length ids a).1.length := by rw [hlen₁]; exact hb
  obtain ⟨hrb, forest₂, -⟩ := root_spec forest₁ hb₁ (forest₁.depth_le hb₁)
  have hlen₂ := length_root (root ids.length ids a).1.length (root ids.length ids a).1 b
  have hunion : union ids a b =
      ((root (root ids.length ids a).1.length (root ids.length ids a).1 b).1).set (rep b) (rep a) := by
    simp only [union, hra, hrb]
  rw [hunion]
  generalize (root (root ids.length ids a).1.length (root ids.length ids a).1 b).1 = ids₂ at forest₂ hlen₂
  rw [hlen₁] at hlen₂
  have ha₂ : a < ids₂.length := by omega
  have hb₂ : b < ids₂.length := by omega
  by_cases hsame : rep b = rep a
  · -- one class already: the root stays where it is
    refine ⟨rep, ⟨depth, ?_⟩, .refl rep, hsame.symm, fun i j hij => .inl hij⟩
    have hself : ids₂.set (rep b) (rep a) = ids₂ := by
      rw [hsame]
      have hlt := forest₂.rep_lt a ha₂
      have hroot := forest₂.rep_root a ha₂
      refine List.ext_getElem (by simp) fun j h₁ h₂ => ?_
      rw [List.getElem_set]
      split
      · rename_i hj
        subst hj
        simpa [Forest.parent, List.getD_eq_getElem?_getD, hlt] using hroot.symm
      · rfl
    rw [hself]
    exact forest₂
  · have joined := forest₂.hang (Forest.mem_roots.2 ⟨forest₂.rep_lt a ha₂, forest₂.rep_root a ha₂⟩)
      (Forest.mem_roots.2 ⟨forest₂.rep_lt b hb₂, forest₂.rep_root b hb₂⟩) hsame
    refine ⟨_, ⟨_, joined⟩, fun i j hij => by simp only [hij], ?_, fun i j hij => ?_⟩
    · have hab : ¬ rep a = rep b := fun h => hsame h.symm
      simp [hab]
    · by_cases hi : rep i = rep b
      · by_cases hj : rep j = rep b
        · exact .inl (hi.trans hj.symm)
        · rw [if_pos hi, if_neg hj] at hij
          exact .inr (.inr ⟨hi, hij.symm⟩)
      · by_cases hj : rep j = rep b
        · rw [if_neg hi, if_pos hj] at hij
          exact .inr (.inl ⟨hij, hj⟩)
        · rw [if_neg hi, if_neg hj] at hij
          exact .inl hij

/-- Point every element at its root. -/
def flatten (n : Nat) (ids : List Nat) : List Nat :=
  (List.range n).foldl (fun ids i =>
    let (ids, r) := root ids.length ids i
    ids.set i r) ids

/-- **After `flatten` the list holds the representatives.** -/
theorem flatten_spec {ids : List Nat} {rep : Nat → Nat} (h : Classes ids rep) :
    (flatten ids.length ids).length = ids.length ∧ ∀ i < ids.length, Forest.parent (flatten ids.length ids) i = rep i := by
  obtain ⟨depth, forest⟩ := h
  have loop : ∀ m ≤ ids.length, (flatten m ids).length = ids.length ∧ Forest (flatten m ids) rep depth ∧
      ∀ j < m, Forest.parent (flatten m ids) j = rep j := by
    intro m
    induction m with
    | zero => exact fun _ => ⟨rfl, forest, nofun⟩
    | succ m ih =>
      intro hm
      obtain ⟨hlen, hforest, hflat⟩ := ih (by omega)
      have hstep : flatten (m + 1) ids = ((root (flatten m ids).length (flatten m ids) m).1).set m
          (root (flatten m ids).length (flatten m ids) m).2 := by
        simp only [flatten, List.range_succ, List.foldl_append, List.foldl_cons, List.foldl_nil]
      rw [hstep]
      have hlt : m < (flatten m ids).length := by omega
      obtain ⟨hr, hrooted, hkeep⟩ := hforest.root_spec hlt (hforest.depth_le hlt)
      have hlen' := length_root (flatten m ids).length (flatten m ids) m
      rw [hr]
      generalize (root (flatten m ids).length (flatten m ids) m).1 = ids' at hrooted hkeep hlen'
      have hm' : m < ids'.length := by omega
      refine ⟨by rw [List.length_set]; omega, ?_, fun j hj => ?_⟩
      · by_cases hroot : Forest.parent ids' m = m
        · have hself : ids'.set m (rep m) = ids' := by
            rw [hrooted.rep_self m hm' hroot]
            refine List.ext_getElem (by simp) fun j h₁ h₂ => ?_
            rw [List.getElem_set]
            split
            · rename_i hj
              subst hj
              simpa [Forest.parent, List.getD_eq_getElem?_getD, hm'] using hroot.symm
            · rfl
          rw [hself]
          exact hrooted
        · refine hrooted.rehang hm' hroot (hrooted.rep_lt m hm') ?_ ?_
          · exact hrooted.rep_self _ (hrooted.rep_lt m hm') (hrooted.rep_root m hm')
          · have hzero := hrooted.depth_root _ (hrooted.rep_lt m hm') (hrooted.rep_root m hm')
            have hpos := hrooted.depth_parent m hm' hroot
            omega
      · rw [Forest.parent_set hm']
        split
        · rename_i hjm
          rw [hjm]
        · exact hkeep j (by omega) (hflat j (by omega))
  obtain ⟨hlen, -, hflat⟩ := loop ids.length (le_refl _)
  exact ⟨hlen, hflat⟩

end Axton
