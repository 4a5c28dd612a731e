import Axton.Compiler.WellFormed

/-!
# Layout and errors

What a source declares depends on its tokens and on where its number literals are cut, not on white space, comments or
positions (`parse_layout`); what is declared is well formed, and an error stands at a token of the source.

Both are read off the source with `Scan.Agree`: two parses of aligned token lists stay at the same index.
-/

namespace Axton.Compiler

open Axton.Scan Axton.Compiler.Parser

/-! ## Tokens of a source -/

/-- The texts that `lex` leaves. -/
def Lexed (s : String) : Prop :=
  s = eof ∨ quoted s = true ∨ (s.toList ≠ [] ∧ ∀ c ∈ s.toList, wordChar c = true) ∨ ∃ c ∈ punctuation,
    s = String.singleton c

/-- Tokens with the end of input last. -/
structure Lexes (ts : List Token) : Prop where
  lexed : ∀ t ∈ ts, Lexed t.text
  last : ∃ us t, ts = us ++ [t] ∧ t.text = eof

theorem Lexes.single {line col : Nat} : Lexes [⟨eof, line, col⟩] where
  lexed := by
    intro t ht
    rw [List.mem_singleton.1 ht]
    exact .inl rfl
  last := ⟨[], _, rfl, rfl⟩

theorem Lexes.cons {t : Token} {ts : List Token} (ht : Lexed t.text) (h : Lexes ts) : Lexes (t :: ts) where
  lexed := List.forall_mem_cons.2 ⟨ht, h.lexed⟩
  last := by
    obtain ⟨us, u, rfl, hu⟩ := h.last
    exact ⟨t :: us, u, rfl, hu⟩

theorem lexFrom_lexes {fuel line col : Nat} {cs : List Char} {ts : List Token}
    (h : lexFrom fuel cs line col = .ok ts) :
    Lexes ts := by
  induction fuel generalizing cs line col ts with
  | zero =>
    cases h
    exact .single
  | succ fuel ih =>
    cases cs with
    | nil =>
      cases h
      exact .single
    | cons c cs =>
      rw [lexFrom] at h
      split at h
      · exact ih h
      split at h
      · exact ih h
      split at h
      · exact ih h
      split at h
      · rename_i hword
        simp only [bind_ok, pure_ok] at h
        obtain ⟨us, hus, rfl⟩ := h
        refine .cons (.inr (.inr (.inl ⟨by simp, ?_⟩))) (ih hus)
        intro d hd
        rw [String.toList_ofList, List.mem_cons] at hd
        rcases hd with rfl | hd
        · exact hword
        · exact (List.all_eq_true.1 (List.all_takeWhile (p := wordChar))) d hd
      split at h
      · rename_i hquote
        split at h
        · cases h
        · simp only [bind_ok, pure_ok] at h
          obtain ⟨us, hus, rfl⟩ := h
          exact .cons (.inr (.inl (by simp [quoted, hquote]))) (ih hus)
      split at h
      · rename_i hmem
        simp only [bind_ok, pure_ok] at h
        obtain ⟨us, hus, rfl⟩ := h
        exact .cons (.inr (.inr (.inr ⟨c, hmem, rfl⟩))) (ih hus)
      · cases h

theorem lex_lexes {source : String} {ts : List Token} (h : lex source = .ok ts) : Lexes ts := lexFrom_lexes h

/-! ## Aligned token lists -/

/-- The same tokens, with every number cut at the same place. -/
structure SameTokens (ts us : List Token) : Prop where
  texts : ts.map (·.text) = us.map (·.text)
  numerals : ∀ i t, ts[i]? = some t → startsNumber t.text = true →
    (numeral (ts.drop i)).length = (numeral (us.drop i)).length

/-- The tokens agree, and at each the number before it goes on or ends in both. -/
def sameGaps : List Token → List Token → Bool
  | t :: t' :: ts, u :: u' :: us =>
    t.text = u.text && continues t t' == continues u u' && sameGaps (t' :: ts) (u' :: us)
  | [t], [u] => t.text = u.text
  | [], [] => true
  | _, _ => false

theorem sameGaps_numeral {ts us : List Token} (h : sameGaps ts us = true) :
    ts.map (·.text) = us.map (·.text) ∧ (numeral ts).length = (numeral us).length := by
  induction ts, us using sameGaps.induct with
  | case1 t t' ts u u' us ih =>
    simp only [sameGaps, Bool.and_eq_true, decide_eq_true_eq, beq_iff_eq] at h
    obtain ⟨⟨htext, hcont⟩, hrest⟩ := h
    obtain ⟨htexts, hlen⟩ := ih hrest
    refine ⟨by simp only [List.map_cons, htext, List.cons.injEq, true_and] at htexts ⊢; exact htexts, ?_⟩
    simp only [numeral, List.length_cons, Nat.add_right_cancel_iff, adjacent, hcont] at hlen ⊢
    split
    · simp [hlen]
    · rfl
  | case2 t u => simpa [sameGaps, numeral, adjacent] using h
  | case3 => exact ⟨rfl, rfl⟩
  | case4 ts us h₁ h₂ h₃ => simp [sameGaps] at h

theorem sameGaps_drop {ts us : List Token} (h : sameGaps ts us = true) (i : Nat) :
    sameGaps (ts.drop i) (us.drop i) = true := by
  induction i generalizing ts us with
  | zero => exact h
  | succ i ih =>
    match ts, us, h with
    | t :: t' :: ts, u :: u' :: us, h =>
      simp only [sameGaps, Bool.and_eq_true] at h
      exact ih h.2
    | [_], [_], _ => cases i <;> rfl
    | [], [], _ => rfl

theorem SameTokens.of_gaps {ts us : List Token} (h : sameGaps ts us = true) : SameTokens ts us where
  texts := (sameGaps_numeral h).1
  numerals i _ _ _ := (sameGaps_numeral (sameGaps_drop h i)).2

structure Aligned (ts us : List Token) : Prop extends SameTokens ts us where
  lexes : Lexes ts

variable {all all' : List Token}

/-- Both parses stand at the same index. -/
def Within (all all' ts us : List Token) : Prop := ∃ i, i < all.length ∧ ts = all.drop i ∧ us = all'.drop i

/-- One message at the same token of both sources. -/
def Located (all all' : List Token) (e f : String) : Prop :=
  ∃ (i : Nat) (t u : Token) (msg : String), all[i]? = some t ∧ all'[i]? = some u ∧ e = diagnostic t.pos msg ∧
    f = diagnostic u.pos msg

/-- The positions of one token in both sources. -/
def Placed (all all' : List Token) (p q : Pos) : Prop :=
  ∃ (i : Nat) (t u : Token), all[i]? = some t ∧ all'[i]? = some u ∧ p = t.pos ∧ q = u.pos

theorem Aligned.length (h : Aligned all all') : all.length = all'.length := by
  simpa using congrArg List.length h.texts

theorem Aligned.get (h : Aligned all all') {i : Nat} {t u : Token} (ht : all[i]? = some t)
    (hu : all'[i]? = some u) :
    t.text = u.text := by
  have htexts := congrArg (·[i]?) h.texts
  simpa [ht, hu] using htexts

/-- The tokens at the index, and what is left after them. -/
theorem Aligned.heads (h : Aligned all all') {ts us : List Token} (hw : Within all all' ts us) :
    ∃ i t u ts' us', all[i]? = some t ∧ all'[i]? = some u ∧ ts = t :: ts' ∧ us = u :: us' ∧ t.text = u.text ∧
      ts = all.drop i ∧ us = all'.drop i ∧ (t.text ≠ eof → Within all all' ts' us') := by
  obtain ⟨i, hi, rfl, rfl⟩ := hw
  have hi' : i < all'.length := h.length ▸ hi
  have ht := List.getElem?_eq_getElem hi
  have hu := List.getElem?_eq_getElem hi'
  refine ⟨i, all[i], all'[i], all.drop (i + 1), all'.drop (i + 1), ht, hu, List.drop_eq_getElem_cons hi,
    List.drop_eq_getElem_cons hi', h.get ht hu, rfl, rfl, fun hne => ⟨i + 1, ?_, rfl, rfl⟩⟩
  -- only the last token is not passed
  obtain ⟨us, t, hall, heof⟩ := h.lexes.last
  by_contra hlast
  have hi'' : i = us.length := by
    have := congrArg List.length hall
    simp only [List.length_append, List.length_singleton] at this
    omega
  refine hne ?_
  simp [hall, hi'', heof]

theorem Within.length (h : Aligned all all') {ts us : List Token} (hw : Within all all' ts us) :
    ts.length = us.length := by
  obtain ⟨i, -, rfl, rfl⟩ := hw
  simp [h.length]

/-! ## Reading tokens -/

/-- Readers that agree on two aligned sources. -/
abbrev Agrees (all all' : List Token) {α β : Type} (b k : Nat) (R : α → β → Prop) (p : Parser α)
    (q : Parser β) : Prop :=
  Agree (Within all all') (Located all all') b k R p q

section
variable (h : Aligned all all') {α β α' β' : Type} {b k l : Nat} {R : α → β → Prop} {Q : α' → β' → Prop}
include h

theorem agree_token {f : Token → Parser α} {g : Token → Parser β}
    (hf : ∀ (i : Nat) t u, all[i]? = some t → all'[i]? = some u → t.text = u.text →
    Agrees all all' b k R (f t) (g u)) :
    Agrees all all' b k R (token >>= f) (token >>= g) := by
  intro ts us hw hb
  obtain ⟨i, t, u, ts', us', ht, hu, rfl, rfl, htext, -⟩ := h.heads hw
  exact hf i t u ht hu htext _ _ hw hb

theorem agree_peek {f : String → Parser α} {g : String → Parser β}
    (hf : ∀ s, Agrees all all' b k R (f s) (g s)) :
    Agrees all all' b k R (peek >>= f) (peek >>= g) :=
  agree_token h fun _ t u _ _ htext => by
    show Agrees all all' b k R (f t.text) (g u.text)
    exact htext ▸ hf t.text

theorem agree_pos {f : Pos → Parser α} {g : Pos → Parser β}
    (hf : ∀ p q, Placed all all' p q → Agrees all all' b k R (f p) (g q)) :
    Agrees all all' b k R (Parser.pos >>= f) (Parser.pos >>= g) :=
  agree_token h fun i t u ht hu _ => hf _ _ ⟨i, t, u, ht, hu, rfl, rfl⟩

theorem agree_fail {msg : String} : Agrees all all' b k R (fail msg) (fail msg) := by
  refine agree_token h fun i t u ht hu htext => ?_
  rw [← htext]
  intro ts us _ _
  exact ⟨i, t, u, _, ht, hu, rfl, rfl⟩

omit h in
theorem agree_failAt {p q : Pos} {msg : String} (hp : Placed all all' p q) :
    Agrees all all' b k R (failAt p msg) (failAt q msg) := by
  obtain ⟨i, t, u, ht, hu, rfl, rfl⟩ := hp
  intro ts us _ _
  exact ⟨i, t, u, _, ht, hu, rfl, rfl⟩

omit h in
/-- Whatever follows a failure. -/
theorem Agrees.fails {p : Parser α'} {q : Parser β'} {f : α' → Parser α} {g : β' → Parser β}
    (hp : Agrees all all' b (b + 1) (fun _ _ => False) p q) : Agrees all all' b k R (p >>= f) (q >>= g) :=
  (Agree.bind (l := k) hp fun _ _ hfalse => hfalse.elim).weaken (by omega) fun _ _ h => h

/-- A token is taken, unless it is the last one. -/
theorem agree_take {f : String → Parser α} {g : String → Parser β}
    (hf : ∀ s, s ≠ eof → 1 ≤ b → Agrees all all' (b - 1) k R (f s) (g s))
    (heof : Agrees all all' b (k + 1) R (f eof) (g eof)) :
    Agrees all all' b (k + 1) R (take >>= f) (take >>= g) := by
  intro ts us hw hb
  obtain ⟨i, t, u, ts', us', -, -, rfl, rfl, htext, -, -, hnext⟩ := h.heads hw
  by_cases hlast : t.text = eof
  · have hrun : ∀ (v : Token) vs, v.text = eof → take.run (v :: vs) = .ok (eof, v :: vs) := by
      intro v vs hv
      simp [take, peek, token, hv]
    rw [run_bind_ok (hrun t ts' hlast), run_bind_ok (hrun u us' (htext ▸ hlast))]
    exact heof _ _ hw hb
  · have hrun : ∀ (v : Token) vs, v.text ≠ eof → take.run (v :: vs) = .ok (v.text, vs) := by
      intro v vs hv
      simp [take, peek, token, hv]
    rw [run_bind_ok (hrun t ts' hlast), run_bind_ok (hrun u us' (htext ▸ hlast)), ← htext]
    rw [List.length_cons] at hb
    have hrest := (hf t.text hlast (by omega) ts' us' (hnext hlast) (by omega)).after
      (show ts'.length + 1 ≤ (t :: ts').length by simp)
    rwa [Nat.add_comm] at hrest

/-- An expected token is taken. -/
theorem agree_eat {s : String} (hs : s ≠ eof) {f : Bool → Parser α} {g : Bool → Parser β}
    (ht : 1 ≤ b → Agrees all all' (b - 1) k R (f true) (g true))
    (hf : Agrees all all' b l R (f false) (g false))
    (hl : l ≤ k + 1) : Agrees all all' b l R (eat s >>= f) (eat s >>= g) := by
  intro ts us hw hb
  obtain ⟨i, t, u, ts', us', -, -, rfl, rfl, htext, -, -, hnext⟩ := h.heads hw
  by_cases hv : t.text = s
  · have hrun : ∀ (v : Token) vs, v.text = s → (eat s).run (v :: vs) = .ok (true, vs) := by
      intro v vs hv
      simp [eat, take, peek, token, hv, hs]
    rw [run_bind_ok (hrun t ts' hv), run_bind_ok (hrun u us' (htext ▸ hv))]
    rw [List.length_cons] at hb
    exact ((ht (by omega) ts' us' (hnext (hv ▸ hs)) (by omega)).after (k := 1) (by simp)).weaken
      (by omega) fun _ _ h => h
  · have hrun : ∀ (v : Token) vs, v.text ≠ s → (eat s).run (v :: vs) = .ok (false, v :: vs) := by
      intro v vs hv
      simp [eat, peek, token, hv]
    rw [run_bind_ok (hrun t ts' hv), run_bind_ok (hrun u us' (htext ▸ hv))]
    exact hf _ _ hw hb

omit h in
/-- After readers that take a token. -/
theorem Agrees.seq {p : Parser α} {q : Parser β} {f : α → Parser α'} {g : β → Parser β'}
    (hp : Agrees all all' b 1 R p q)
    (hf : ∀ x y, R x y → 1 ≤ b → Agrees all all' (b - 1) k Q (f x) (g y)) :
    Agrees all all' b (k + 1) Q (p >>= f) (q >>= g) := by
  rw [Nat.add_comm]
  exact Agree.bind hp hf

omit h in
/-- After readers that may take none. -/
theorem Agrees.andThen {p : Parser α} {q : Parser β} {f : α → Parser α'} {g : β → Parser β'}
    (hp : Agrees all all' b 0 R p q)
    (hf : ∀ x y, R x y → Agrees all all' b k Q (f x) (g y)) : Agrees all all' b k Q (p >>= f) (q >>= g) := by
  have hboth := Agree.bind (l := k) hp fun x y hxy _ => hf x y hxy
  rwa [Nat.zero_add] at hboth

omit h in
/-- A check that both parses make. -/
theorem Agrees.guard {c c' : Prop} [Decidable c] [Decidable c'] {p q : Parser Unit}
    {f g : Unit → Parser α} (hc : c ↔ c')
    (hp : Agrees all all' b (b + 1) (fun _ _ => False) p q) {R : α → α → Prop}
    (hf : ¬ c → Agrees all all' b k R (f ()) (g ())) :
    Agrees all all' b k R (if c then p >>= f else f ()) (if c' then q >>= g else g ()) := by
  by_cases h : c
  · rw [if_pos h, if_pos (hc.1 h)]
    exact hp.fails
  · rw [if_neg h, if_neg (mt hc.2 h)]
    exact hf h

omit h in
theorem Agrees.ite {c c' : Prop} [Decidable c] [Decidable c'] {p p' : Parser α} {q q' : Parser β} (hc : c ↔ c')
    (ht : c → Agrees all all' b k R p q) (hf : ¬ c → Agrees all all' b k R p' q') :
    Agrees all all' b k R (if c then p else p') (if c' then q else q') := by
  by_cases h : c
  · rw [if_pos h, if_pos (hc.1 h)]
    exact ht h
  · rw [if_neg h, if_neg (mt hc.2 h)]
    exact hf h

theorem agree_eats {s : String} (hs : s ≠ eof) : Agrees all all' b 0 (· = ·) (eat s) (eat s) := by
  have hboth : Agrees all all' b 0 (· = ·) (eat s >>= Pure.pure) (eat s >>= Pure.pure) :=
    agree_eat (k := 0) h hs (fun _ => Agree.pure rfl) (Agree.pure rfl) (by omega)
  rwa [bind_pure] at hboth

theorem agree_need {s : String} (hs : s ≠ eof) : Agrees all all' b 1 (fun _ _ => True) (need s) (need s) :=
  agree_eat h hs (fun _ => Agree.pure trivial) (agree_fail h) (by omega)

theorem agree_ident : Agrees all all' b 1 (fun x y => x = y ∧ isIdent x = true) ident ident := by
  refine agree_take h (fun s _ _ => ?_) ?_
  · exact Agrees.ite Iff.rfl (fun hs => Agree.pure ⟨rfl, hs⟩) fun _ => agree_fail h
  · exact agree_fail h

theorem agree_upTo {s : String} (hs : s ≠ eof) {step step' : α → Parser α} {R : α → α → Prop}
    (hstep : ∀ x y, R x y → Agrees all all' b 1 R (step x) (step' y)) {x y : α} (hxy : R x y) :
    Agrees all all' b 0 R (upTo s step x) (upTo s step' y) :=
  Agree.loop (agree_eat h hs (fun _ => Agree.pure rfl) (Agree.pure rfl)
    (by omega)) hstep hxy fun _ _ hw => hw.length h

theorem agree_comma {s : String} : Agrees all all' b 0 (fun _ _ => True) (comma s) (comma s) :=
  agree_peek h fun _ => Agrees.ite Iff.rfl (fun _ => (agree_need (s := ",") h (by decide)).weaken
    (Nat.zero_le _) fun _ _ h => h)
    fun _ => Agree.pure trivial

theorem agree_path : Agrees all all' b 1 (fun x y => x = y ∧ IsPath x) path path := by
  refine Agrees.seq (k := 0) (agree_ident h) fun x y hxy _ => ?_
  refine Agree.loop (agree_eats h (by decide)) ?_ ⟨hxy.1, .ident hxy.2⟩ fun _ _ hw => hw.length h
  rintro x _ ⟨rfl, hx⟩
  refine Agrees.seq (k := 0) (agree_ident h) ?_
  rintro z _ ⟨rfl, hz⟩ _
  exact Agree.pure ⟨rfl, .dot hx hz⟩

theorem agree_string : Agrees all all' b 1 (fun x y => x = y) string string := by
  refine agree_take h (fun s _ _ => ?_) ?_
  · cases decodeString s with
    | some s => exact Agree.pure rfl
    | none => exact agree_fail h
  · exact agree_fail h

omit h in
theorem agree_get {f : List Token → Parser α} {g : List Token → Parser β}
    (hf : ∀ ts us, Within all all' ts us → ts.length ≤ b → Agrees all all' b k R (f ts) (g us)) :
    Agrees all all' b k R (get >>= f) (get >>= g) := by
  intro ts us hw hb
  rw [run_bind_ok (run_get ts), run_bind_ok (run_get us)]
  exact hf ts us hw hb ts us hw hb

/-! ## Expressions -/

theorem Within.texts {ts us : List Token} (hw : Within all all' ts us) : ts.map (·.text) = us.map (·.text) := by
  obtain ⟨i, -, rfl, rfl⟩ := hw
  rw [List.map_drop, List.map_drop, h.texts]

omit h in
theorem ArgumentKeys.insert {args : Fields} {n : Nat} (hk : ArgumentKeys args n) {key : String}
    (hp : IsPath key) (v : Json) :
    ArgumentKeys (args.insert key v) n where
  ordered := Fields.insert_ordered hk.ordered key v
  positional i hi := by
    have hold := hk.positional i hi
    unfold Fields.contains at hold ⊢
    rw [Fields.get_insert]
    split
    · rfl
    · exact hold
  keys e he := by
    rcases Fields.mem_insert he with rfl | he
    · exact .inl hp
    · exact hk.keys e he

omit h in
theorem ArgumentKeys.push {args : Fields} {n : Nat} (hk : ArgumentKeys args n) (v : Json) :
    ArgumentKeys (args.insert (toString n) v) (n + 1) where
  ordered := Fields.insert_ordered hk.ordered _ v
  positional i hi := by
    unfold Fields.contains
    rw [Fields.get_insert]
    split
    · rfl
    · rename_i hne
      exact hk.positional i (Nat.lt_of_le_of_ne (Nat.le_of_lt_succ hi) fun hin => hne (by rw [hin]))
  keys e he := by
    rcases Fields.mem_insert he with rfl | he
    · exact .inr ⟨n, Nat.lt_succ_self n, rfl⟩
    · rcases hk.keys e he with hp | ⟨i, hi, heq⟩
      · exact .inl hp
      · exact .inr ⟨i, Nat.lt_succ_of_lt hi, heq⟩

/-- Arguments as they are read. -/
def Collected (s t : Fields × Nat) : Prop := s = t ∧ ArgumentKeys s.1 s.2 ∧ ∀ e ∈ s.1, IsExpression e.2

/-- One value and its key: what was read goes on as `Collected`. -/
theorem agree_argument {p : Parser Json} (hp : Agrees all all' b 1
    (fun x y => x = y ∧ IsExpression x) p p) {s t : Fields × Nat}
    (hst : Collected s t) : Agrees all all' b 1 Collected (argument p s) (argument p t) := by
  obtain ⟨rfl, hkeys, hvalues⟩ := hst
  -- from the key on
  have hrest : ∀ (b' : Nat) key n, b' ≤ b → (∀ v, ArgumentKeys (s.1.insert key v) n) →
      Agrees all all' b' 1 Collected (do
        let value ← p
        if s.1.contains key then fail "duplicate argument"
        comma ")"
        return (s.1.insert key value, n)) (do
        let value ← p
        if s.1.contains key then fail "duplicate argument"
        comma ")"
        return (s.1.insert key value, n)) := by
    intro b' key n hb hk
    refine Agrees.seq (k := 0) (hp.fewer hb) ?_
    rintro v _ ⟨rfl, hv⟩ _
    refine Agrees.guard Iff.rfl (agree_fail h) fun _ => ?_
    refine Agrees.andThen (agree_comma h) fun _ _ _ => Agree.pure ⟨rfl, hk v, fun e he => ?_⟩
    rcases Fields.mem_insert he with rfl | he
    · exact hv
    · exact hvalues e he
  refine agree_get fun ts us hw _ => ?_
  have htexts : (ts.drop 1).map (·.text) = (us.drop 1).map (·.text) := by
    rw [List.map_drop, List.map_drop, Within.texts h hw]
  rw [htexts]
  refine Agrees.ite Iff.rfl (fun _ => ?_) fun _ => ?_
  · refine (Agrees.seq (k := 2) (agree_path h) ?_).weaken (by omega) fun _ _ h => h
    rintro k _ ⟨rfl, hk⟩ _
    refine Agrees.seq (k := 1) (agree_need h (by decide)) fun _ _ _ _ => ?_
    exact hrest _ k s.2 (by omega) fun v => hkeys.insert hk v
  · exact hrest b (toString s.2) (s.2 + 1) (Nat.le_refl _) fun v => hkeys.push v

theorem agree_argumentsOf {p : Parser Json} (hp : Agrees all all' (b - 1) 1 (fun x y => x = y ∧ IsExpression x) p p) :
    Agrees all all' b 1 (fun x y => x = y ∧ IsArguments x) (argumentsOf p) (argumentsOf p) := by
  refine Agrees.seq (k := 0) (agree_need h (by decide)) fun _ _ _ _ => ?_
  refine Agrees.andThen (agree_upTo (R := Collected) h (by decide) (fun _ _ => agree_argument h hp)
    ⟨rfl, ⟨List.Pairwise.nil, by simp, by simp⟩, by simp⟩) ?_
  rintro ⟨args, n⟩ _ ⟨rfl, hkeys, hvalues⟩
  exact Agree.pure ⟨rfl, args, n, rfl, hkeys, hvalues⟩

/-- The levels are enough, since each takes a token. -/
theorem agree_expressionOf {n : Nat} (hb : b < n) :
    Agrees all all' b 1 (fun x y => x = y ∧ IsExpression x) (expressionOf n) (expressionOf n) := by
  induction n generalizing b with
  | zero => omega
  | succ n ih =>
    refine agree_eat (s := "[") (k := 0) h (by decide) (fun hb' => ?_) ?_ (by omega)
    · -- the items of a list
      refine Agrees.andThen (agree_upTo (R := fun xs ys => xs = ys ∧ ∀ x ∈ xs, IsExpression x) h (by decide) ?_
        ⟨rfl, by simp⟩) ?_
      · rintro xs _ ⟨rfl, hxs⟩
        refine Agrees.seq (k := 0) (ih (by omega)) ?_
        rintro x _ ⟨rfl, hx⟩ _
        refine Agrees.andThen (agree_comma h) fun _ _ _ => Agree.pure ⟨rfl, fun y hy => ?_⟩
        rcases List.mem_append.1 hy with hy | hy
        · exact hxs y hy
        · exact List.mem_singleton.1 hy ▸ hx
      · rintro xs _ ⟨rfl, hxs⟩
        exact Agree.pure ⟨rfl, .arr hxs⟩
    · refine agree_peek h fun s => Agrees.ite Iff.rfl (fun _ => ?_) fun _ => ?_
      · refine Agrees.seq (k := 0) (agree_string h) ?_
        rintro v _ rfl _
        exact Agree.pure ⟨rfl, .str v⟩
      · refine Agrees.seq (k := 0) (agree_path h) ?_
        rintro name _ ⟨rfl, hname⟩ hb'
        refine agree_peek h fun s => Agrees.ite Iff.rfl (fun _ => ?_) fun _ => Agree.pure ⟨rfl, .str name⟩
        refine (Agrees.seq (k := 0) (agree_argumentsOf h (ih (by omega))) ?_).weaken (by omega) fun _ _ h => h
        rintro _ _ ⟨rfl, args, m, rfl, hkeys, hvalues⟩ _
        have hobject : Fields.extend [] [("name", .str name), ("arguments", .obj args)] =
            [("arguments", .obj args), ("name", .str name)] := by
          simp [Fields.extend, Fields.insert, show "arguments" < "name" by decide]
        rw [hobject]
        exact Agree.pure ⟨rfl, .call hname hkeys hvalues⟩

theorem agree_expression : Agrees all all' b 1 (fun x y => x = y ∧ IsExpression x) expression expression := by
  intro ts us hw hb
  unfold expression
  rw [run_bind_ok (run_get ts), run_bind_ok (run_get us), ← Within.length h hw]
  exact agree_expressionOf h (Nat.lt_succ_self _) ts us hw (Nat.le_refl _)

theorem agree_arguments : Agrees all all' b 1 (fun x y => x = y ∧ IsArguments x) arguments arguments :=
  agree_argumentsOf h (agree_expression h)

/-! ## Directives and shapes -/

theorem agree_version {seen seen' : Bool} (hseen : seen = seen') :
    Agrees all all' b 1 (fun x y => x = y ∧ IsVersion x) (version seen) (version seen') := by
  subst hseen
  unfold version
  refine Agrees.guard Iff.rfl (agree_fail h) fun _ => ?_
  refine (Agrees.seq (k := 1) (agree_need h (by decide)) fun _ _ _ _ => ?_).weaken (by omega) fun _ _ h => h
  refine agree_take h (fun s _ _ => ?_) (agree_fail h)
  cases parseVersion s with
  | none => exact agree_fail h
  | some v =>
    refine Agrees.guard Iff.rfl (agree_fail h) fun hv => ?_
    refine (Agrees.seq (k := 0) (agree_need h (by decide)) fun _ _ _ _ => ?_).weaken (by omega) fun _ _ h => h
    exact Agree.pure ⟨rfl, by unfold IsVersion; omega⟩

theorem agree_deprecation : Agrees all all' b 0 (fun x y => x = y) deprecation deprecation := by
  refine agree_eat (k := 0) h (by decide) (fun _ => ?_) (Agree.pure rfl) (by omega)
  refine agree_eat (k := 0) h (by decide) (fun _ => Agree.pure rfl) ?_ (by omega)
  refine (Agrees.seq (k := 3) (agree_ident h) ?_).weaken (by omega) fun _ _ h => h
  rintro name _ ⟨rfl, -⟩ _
  refine Agrees.guard Iff.rfl (agree_fail h) fun _ => ?_
  refine Agrees.seq (k := 2) (agree_need h (by decide)) fun _ _ _ _ => ?_
  refine agree_peek h fun s => Agrees.guard Iff.rfl (agree_fail h) fun _ => ?_
  refine Agrees.seq (k := 1) (agree_string h) ?_
  rintro reason _ rfl _
  exact Agrees.seq (k := 0) (agree_need h (by decide)) fun _ _ _ _ => Agree.pure rfl

theorem agree_names {s : String} (hs : s ≠ eof) :
    Agrees all all' b 0 (fun x y => x = y ∧ ∀ n ∈ x, isIdent n = true) (names s) (names s) := by
  refine agree_upTo h hs ?_ ⟨rfl, by simp⟩
  rintro ns _ ⟨rfl, hns⟩
  refine Agrees.seq (k := 0) (agree_ident h) ?_
  rintro n _ ⟨rfl, hn⟩ _
  refine Agrees.andThen (agree_comma h) fun _ _ _ => Agree.pure ⟨rfl, fun m hm => ?_⟩
  rcases List.mem_append.1 hm with hm | hm
  · exact hns m hm
  · exact List.mem_singleton.1 hm ▸ hn

theorem agree_brackets : Agrees all all' b 0 (fun x y => x = y) brackets brackets := by
  refine agree_eat (k := 0) h (by decide) (fun _ => ?_) (Agree.pure rfl) (by omega)
  exact (Agrees.seq (k := 0) (agree_need h (by decide)) fun _ _ _ _ => Agree.pure rfl).weaken
    (by omega) fun _ _ h => h

theorem agree_actionShape :
    Agrees all all' b 0 (fun x y => x = y ∧ ¬ (x.1 = true ∧ x.2 = true)) actionShape actionShape := by
  refine Agrees.andThen (agree_brackets h) ?_
  rintro list _ rfl
  refine Agrees.andThen (agree_eats h (by decide)) ?_
  rintro nullable _ rfl
  refine agree_peek h fun s => Agrees.guard Iff.rfl (agree_fail h) fun _ => ?_
  exact Agrees.guard Iff.rfl (agree_fail h) fun hn => Agree.pure ⟨rfl, hn⟩

theorem agree_directive : Agrees all all' b 0 (fun x y => x = y) directive directive := by
  refine agree_get fun ts us hw _ => ?_
  rw [Within.texts h hw]
  exact agree_peek h fun _ => Agree.pure rfl

/-! ## Defaults -/

omit h in
theorem adjacent_spec (t : Token) (ts : List Token) : adjacent t ts <+: ts ∧
    ∀ u ∈ adjacent t ts, u.text ≠ eof ∧ (u.text = "." ∨ u.text = "-" ∨
    u.text.toList.head?.any Char.isAlphanum = true) := by
  induction ts generalizing t with
  | nil => simp [adjacent]
  | cons u ts ih =>
    rw [adjacent]
    split
    · rename_i hcont
      obtain ⟨hfront, hall⟩ := ih u
      refine ⟨(List.prefix_cons_inj u).2 hfront, List.forall_mem_cons.2 ⟨?_, hall⟩⟩
      simp only [continues, Bool.and_eq_true, Bool.or_eq_true, decide_eq_true_eq] at hcont
      exact ⟨hcont.2, by tauto⟩
    · exact ⟨List.nil_prefix, by simp⟩

omit h in
theorem quoted_head {s : String} (hq : quoted s = true) : s.toList.head? = some '"' := by simpa [quoted] using hq

omit h in
/-- Tokens that spell a number are not the end of input and have no plus sign. -/
theorem numeral_spec {t : Token} {ts : List Token} (ht : startsNumber t.text = true)
    (hl : ∀ u ∈ t :: ts, Lexed u.text) : numeral (t :: ts) <+: t :: ts ∧
      ∀ u ∈ numeral (t :: ts), u.text ≠ eof ∧ '+' ∉ u.text.toList := by
  obtain ⟨hfront, hall⟩ := adjacent_spec t ts
  have plain : ∀ s, Lexed s → s ≠ eof → quoted s = false → '+' ∉ s.toList := by
    intro s hs hne hq
    rcases hs with hs | hs | ⟨-, hs⟩ | ⟨c, hc, rfl⟩
    · exact absurd hs hne
    · rw [hs] at hq
      cases hq
    · exact fun hplus => absurd (hs _ hplus) (by decide)
    · intro hplus
      have hplus : '+' = c := by simpa using hplus
      exact absurd (hplus ▸ hc) (by decide)
  have unquoted : ∀ s : String, (s.toList.head? = some '-' ∨ s.toList.head? = some '.' ∨
      s.toList.head?.any Char.isAlphanum = true) → quoted s = false := by
    intro s hs
    by_contra hq
    rw [quoted_head (by simpa using hq)] at hs
    revert hs
    decide
  refine ⟨(List.prefix_cons_inj t).2 hfront, List.forall_mem_cons.2 ⟨?_, fun u hu => ?_⟩⟩
  · have hne : t.text ≠ eof := by
      intro heof
      rw [heof] at ht
      revert ht
      decide
    refine ⟨hne, plain _ (hl t List.mem_cons_self) hne (unquoted _ ?_)⟩
    simp only [startsNumber, Bool.or_eq_true, decide_eq_true_eq] at ht
    rcases ht with ht | ht
    · exact .inl (by rw [ht]; rfl)
    · refine .inr (.inr ?_)
      cases hhead : t.text.toList.head? with
      | none => simp [hhead] at ht
      | some c =>
        rw [hhead] at ht
        simp only [Option.any_some] at ht ⊢
        simp [Char.isAlphanum, ht]
  · obtain ⟨hne, hu'⟩ := hall u hu
    refine ⟨hne, plain _ (hl u (List.mem_cons_of_mem _ (hfront.subset hu))) hne (unquoted _ ?_)⟩
    rcases hu' with hu' | hu' | hu'
    · exact .inr (.inl (by rw [hu']; rfl))
    · exact .inl (by rw [hu']; rfl)
    · exact .inr (.inr hu')

omit h in
theorem join_plain {ss : List String} (hs : ∀ s ∈ ss, '+' ∉ s.toList) : '+' ∉ (String.join ss).toList := by
  rw [String.toList_join]
  simpa using hs

/-- A number is read where one starts. -/
theorem agree_number (finite : String → Bool) {ts us : List Token} (hw : Within all all' ts us)
    (hstart : ∀ t ∈ ts.head?, startsNumber t.text = true) :
    Outcomes (Within all all') (Located all all') 1
      (fun x y => x = y ∧ (DefaultExpr.number x).WellFormed finite) ts
      ((number finite).run ts) ((number finite).run us) := by
  obtain ⟨i, t, u, ts', us', ht, hu, rfl, rfl, htext, hts, hus, -⟩ := h.heads hw
  have hlen := h.numerals i t ht (hstart t rfl)
  rw [← hts, ← hus] at hlen
  have hl : ∀ v ∈ t :: ts', Lexed v.text := fun v hv => h.lexes.lexed v (List.mem_of_mem_drop (hts ▸ hv))
  have hl' : ∀ v ∈ u :: us', Lexed v.text := by
    intro v hv
    have hmem : v.text ∈ (u :: us').map (·.text) := List.mem_map_of_mem hv
    rw [← Within.texts h hw] at hmem
    obtain ⟨w, hw, heq⟩ := List.mem_map.1 hmem
    exact heq ▸ hl w hw
  obtain ⟨hfront, hall⟩ := numeral_spec (hstart t rfl) hl
  obtain ⟨hfront', -⟩ := numeral_spec (htext ▸ hstart t rfl) hl'
  have htake := List.prefix_iff_eq_take.1 hfront
  have htake' := List.prefix_iff_eq_take.1 hfront'
  have htexts : (numeral (t :: ts')).map (·.text) = (numeral (u :: us')).map (·.text) := by
    rw [htake, htake', List.map_take, List.map_take, Within.texts h hw, hlen]
  unfold number
  rw [run_bind_ok (run_get _), run_bind_ok (run_get _)]
  simp only [htexts]
  split
  · rename_i hnumber
    refine ⟨⟨rfl, hnumber, join_plain fun s hs => ?_⟩, ⟨i + (numeral (t :: ts')).length, ?_, ?_, ?_⟩, ?_⟩
    · rw [← htexts] at hs
      obtain ⟨v, hv, rfl⟩ := List.mem_map.1 hs
      exact (hall v hv).2
    · -- the last token is not part of a number
      obtain ⟨vs, v, hlast, heof⟩ := h.lexes.last
      by_contra hge
      have hwhole : numeral (t :: ts') = all.drop i := by
        have hlong : (t :: ts').length ≤ (numeral (t :: ts')).length := by
          rw [hts, List.length_drop, ← hts]
          omega
        rw [htake, List.take_of_length_le hlong, hts]
      have hmem : v ∈ numeral (t :: ts') := by
        have hi := (List.getElem?_eq_some_iff.1 ht).1
        rw [hwhole, hlast, List.drop_append_of_le_length (by simp [hlast] at hi; omega)]
        exact List.mem_append_right _ (List.mem_singleton.2 rfl)
      exact (hall v hmem).1 heof
    · simp [hts]
    · simp [hus, hlen]
    · have hle := hfront.length_le
      have hpos : 1 ≤ (numeral (t :: ts')).length := Nat.succ_le_succ (Nat.zero_le _)
      show ((t :: ts').drop (numeral (t :: ts')).length).length + 1 ≤ _
      rw [List.length_drop]
      omega
  · exact agree_fail h _ _ hw (Nat.le_refl _)

/-- The text that was peeked at is the text at the index. -/
theorem agree_head {f : String → Parser α} {g : String → Parser β}
    (hf : ∀ t ts us, Within all all' (t :: ts) us → (t :: ts).length ≤ b →
      Outcomes (Within all all') (Located all all') k R
      (t :: ts) ((f t.text).run (t :: ts)) ((g t.text).run us)) :
    Agrees all all' b k R (peek >>= f) (peek >>= g) := by
  intro ts us hw hb
  obtain ⟨i, t, u, ts', us', -, -, rfl, rfl, htext, -⟩ := h.heads hw
  have hrun := hf t ts' (u :: us') hw hb
  rw [show (g t.text).run (u :: us') = (g u.text).run (u :: us') by rw [htext]] at hrun
  exact hrun

theorem agree_defaultArgument {finite : String → Bool} {n m : Nat} (hn : n = m) :
    Agrees all all' b 1 (fun x y => x = y) (defaultArgument finite n) (defaultArgument finite m) := by
  subst hn
  have hrest : ∀ b', Agrees all all' b' 0 (fun x y => x = y) (do
      comma ")"
      return n + 1) (do
      comma ")"
      return n + 1) := fun b' => Agrees.andThen (agree_comma h) fun _ _ _ => Agree.pure rfl
  refine agree_peek h fun s => Agrees.guard Iff.rfl (agree_fail h) fun _ => ?_
  refine agree_head h fun t ts us hw hb => ?_
  by_cases hstart : startsNumber t.text = true
  · simp only [hstart, if_true]
    exact (agree_number h finite hw fun _ ht => by cases ht; exact hstart).bind hb fun _ _ _ _ => hrest _
  · simp only [hstart]
    exact Agrees.seq (agree_expression h) (fun _ _ _ _ => hrest _) _ _ hw hb

/-- One default at two positions. -/
def SameDefault (finite : String → Bool) (d e : DefaultDecl) : Prop :=
  d.unplaced = e.unplaced ∧ d.expr.WellFormed finite

theorem agree_defaultValue {finite : String → Bool} {p q : Pos} :
    Agrees all all' b 1 (SameDefault finite) (defaultValue finite p)
      (defaultValue finite q) := by
  -- once the expression is read
  have hrest : ∀ b' (e e' : DefaultExpr), e = e' ∧ e.WellFormed finite →
      Agrees all all' b' 1 (SameDefault finite) (do
        need ")"
        return (⟨e, p⟩ : DefaultDecl)) (do
        need ")"
        return (⟨e', q⟩ : DefaultDecl)) := by
    rintro b' e _ ⟨rfl, he⟩
    exact Agrees.seq (k := 0) (agree_need h (by decide)) fun _ _ _ _ => Agree.pure ⟨rfl, he⟩
  refine (Agrees.seq (k := 1) (agree_need h (by decide)) fun _ _ _ _ => ?_).weaken (by omega) fun _ _ h => h
  refine agree_peek h fun s => Agrees.guard Iff.rfl (agree_fail h) fun _ => ?_
  refine agree_peek h fun s => agree_head h fun t ts us hw hb => ?_
  by_cases hquoted : quoted s = true
  · simp only [hquoted, if_true]
    refine Agree.weaken (l := 1) (Agrees.seq (k := 1) ((agree_string h).map
      (Q := fun x y => x = y ∧ x.WellFormed finite) ?_)
      fun x y hxy _ => hrest _ x y hxy) (by omega) (fun _ _ h => h) _ _ hw hb
    rintro v _ rfl
    exact ⟨rfl, trivial⟩
  by_cases hstart : startsNumber t.text = true
  · simp only [hquoted, hstart, if_true, map_eq_pure_bind, bind_assoc, pure_bind]
    refine ((agree_number h finite hw fun _ ht => by cases ht; exact hstart).bind
      (l := 1) hb ?_).weaken (by omega)
      fun _ _ h => h
    rintro x _ ⟨rfl, hx⟩ _
    exact hrest _ _ _ ⟨rfl, hx⟩
  · simp only [hquoted, hstart]
    refine Agree.weaken (l := 1) (k := 2) (Agrees.seq (agree_ident h) ?_) (by omega) (fun _ _ h => h) _ _ hw hb
    rintro name _ ⟨rfl, hname⟩ _
    refine agree_peek h fun s => Agrees.ite Iff.rfl (fun _ => ?_) fun _ => hrest _ _ _ ⟨rfl, hname⟩
    refine (Agrees.seq (k := 1) (agree_need h (by decide)) fun _ _ _ _ => ?_).weaken (by omega) fun _ _ h => h
    refine Agrees.andThen ((agree_upTo h (by decide) (fun _ _ => agree_defaultArgument h) rfl).map
      (Q := fun x y => x = y ∧ x.WellFormed finite) ?_) fun x y hxy => hrest _ x y hxy
    rintro n _ rfl
    exact ⟨rfl, hname⟩

/-! ## Fields and operands -/

/-- Attributes as they are read. -/
structure SameAttributes (finite : String → Bool) (s t : Attributes) : Prop where
  args : s.args = t.args
  deprecated : s.deprecated = t.deprecated
  default : s.default.map (·.unplaced) = t.default.map (·.unplaced)
  ordered : s.args.Ordered
  attributes : ∀ e ∈ s.args, e.1 ∈ ["reference", "inverse", "requires"] ∧ IsArguments e.2
  wellFormed : ∀ d ∈ s.default, d.expr.WellFormed finite

theorem agree_fieldDirective {finite : String → Bool} {s t : Attributes} (hst : SameAttributes finite s t) :
    Agrees all all' b 1 (SameAttributes finite) (fieldDirective finite s) (fieldDirective finite t) := by
  refine agree_pos h fun p q _ => ?_
  refine Agrees.seq (k := 0) (agree_need h (by decide)) fun _ _ _ _ => ?_
  refine (Agrees.seq (k := 0) (agree_ident h) ?_).weaken (by omega) fun _ _ h => h
  rintro attr _ ⟨rfl, -⟩ _
  refine Agrees.ite Iff.rfl (fun _ => ?_) fun _ => Agrees.ite Iff.rfl (fun _ => ?_) fun _ => ?_
  · refine Agrees.guard (by rw [hst.deprecated]) (agree_fail h) fun _ => ?_
    refine Agrees.andThen (agree_deprecation h) ?_
    rintro reason _ rfl
    exact Agree.pure { hst with deprecated := rfl }
  · have hsome : s.default.isSome = t.default.isSome := by
      have := congrArg Option.isSome hst.default
      simpa using this
    refine Agrees.guard (by rw [hsome]) (agree_fail h) fun _ => ?_
    refine (Agrees.seq (k := 0) (agree_defaultValue h) ?_).weaken (by omega) fun _ _ h => h
    rintro d d' ⟨hd, hwf⟩ _
    exact Agree.pure { hst with
      default := by simpa using hd
      wellFormed := by
        intro e he
        cases he
        exact hwf }
  · refine Agrees.guard Iff.rfl (agree_fail h) fun hname => ?_
    refine (Agrees.seq (k := 0) (agree_arguments h) ?_).weaken (by omega) fun _ _ h => h
    rintro args _ ⟨rfl, hargs⟩ _
    refine Agrees.guard (by rw [hst.args]) (agree_fail h) fun _ => ?_
    exact Agree.pure { hst with
      args := by rw [hst.args]
      ordered := Fields.insert_ordered hst.ordered _ _
      attributes := by
        intro e he
        rcases Fields.mem_insert he with rfl | he
        · exact ⟨Classical.not_not.1 hname, hargs⟩
        · exact hst.attributes e he }

/-- One field at two positions. -/
def SameField (finite : String → Bool) (action : Bool) (f g : FieldDecl) : Prop :=
  f.unplaced = g.unplaced ∧ f.WellFormed finite action

theorem agree_fieldAfterHeader {finite : String → Bool} {name typeName : String} (hname : isIdent name = true)
    (htype : isIdent typeName = true) {p q : Pos} {action : Bool} :
    Agrees all all' b 0 (SameField finite action) (fieldAfterHeader finite name typeName p action)
      (fieldAfterHeader finite name typeName q action) := by
  -- once the shape is read
  have hrest : ∀ shape : Bool × Bool, (action = true → ¬ (shape.1 = true ∧ shape.2 = true)) →
      Agrees all all' b 0 (SameField finite action)
        (Scan.loop directive (fieldDirective finite) {} >>= fun s =>
          pure ⟨name, typeName, shape.1, shape.2, s.args, s.deprecated, s.default, p⟩)
        (Scan.loop directive (fieldDirective finite) {} >>= fun s =>
          pure ⟨name, typeName, shape.1, shape.2, s.args, s.deprecated, s.default, q⟩) := by
    intro shape hshape
    refine Agrees.andThen (Agree.loop (agree_directive h) (fun _ _ => agree_fieldDirective h)
      ⟨rfl, rfl, rfl, List.Pairwise.nil, by simp, by simp⟩ fun _ _ hw => Within.length h hw) fun s t hst => ?_
    refine Agree.pure ⟨?_, hname, htype, hshape, hst.ordered, hst.attributes, hst.wellFormed⟩
    simp [FieldDecl.unplaced, hst.args, hst.deprecated, hst.default]
  refine Agrees.ite Iff.rfl (fun _ => ?_) fun hno => ?_
  · refine Agrees.andThen (agree_actionShape h) ?_
    rintro shape _ ⟨rfl, hshape⟩
    exact hrest shape fun _ => hshape
  · refine Agrees.andThen (agree_brackets h) ?_
    rintro list _ rfl
    refine Agrees.andThen (agree_eats h (by decide)) ?_
    rintro nullable _ rfl
    exact hrest (list, nullable) fun ha => absurd ha hno

theorem agree_field {finite : String → Bool} {action : Bool} :
    Agrees all all' b 1 (SameField finite action) (field finite action) (field finite action) := by
  refine agree_pos h fun p q _ => ?_
  refine (Agrees.seq (k := 1) (agree_ident h) ?_).weaken (by omega) fun _ _ h => h
  rintro name _ ⟨rfl, hname⟩ _
  refine Agrees.seq (k := 0) (agree_ident h) ?_
  rintro typeName _ ⟨rfl, htype⟩ _
  exact agree_fieldAfterHeader h hname htype

theorem agree_slotDirective {d e : Option (Option String)} (hd : d = e) :
    Agrees all all' b 1 (fun x y => x = y) (slotDirective d) (slotDirective e) := by
  subst hd
  refine Agrees.seq (k := 0) (agree_need h (by decide)) fun _ _ _ _ => ?_
  refine (Agrees.seq (k := 0) (agree_ident h) ?_).weaken (by omega) fun _ _ h => h
  rintro attr _ ⟨rfl, -⟩ _
  refine Agrees.guard Iff.rfl (agree_fail h) fun _ => Agrees.guard Iff.rfl (agree_fail h) fun _ => ?_
  refine Agrees.andThen (agree_deprecation h) ?_
  rintro reason _ rfl
  exact Agree.pure rfl

/-- What a slot may say before its shape. -/
structure SlotHead (s : String × Option (List String) × Json) : Prop where
  operation : s.1 ∈ ["create", "update", "delete"]
  allowed : ∀ ns ∈ s.2.1, s.1 = "update" ∧ ∀ n ∈ ns, isIdent n = true
  bindings : IsArguments s.2.2

theorem agree_slotHead : Agrees all all' b 1 (fun x y => x = y ∧ SlotHead x) slotHead slotHead := by
  refine Agrees.seq (k := 0) (agree_need h (by decide)) fun _ _ _ _ => ?_
  refine (Agrees.seq (k := 0) (agree_ident h) ?_).weaken (by omega) fun _ _ h => h
  rintro operation _ ⟨rfl, -⟩ _
  refine Agrees.guard Iff.rfl (agree_fail h) fun hop => ?_
  have hop : operation ∈ ["create", "update", "delete"] := Classical.not_not.1 hop
  -- once the allowed fields are read
  have hrest : ∀ b' (allowed : Option (List String)), (∀ ns ∈ allowed, operation = "update" ∧
    ∀ n ∈ ns, isIdent n = true) →
      Agrees all all' b' 0 (fun x y => x = y ∧ SlotHead x) (do
        let bindings ← if (← peek) = "(" then arguments else pure (.obj [])
        return (operation, allowed, bindings)) (do
        let bindings ← if (← peek) = "(" then arguments else pure (.obj [])
        return (operation, allowed, bindings)) := by
    intro b' allowed hallowed
    refine agree_peek h fun s => Agrees.ite Iff.rfl (fun _ => ?_) fun _ => ?_
    · refine (Agrees.seq (k := 0) (agree_arguments h) ?_).weaken (by omega) fun _ _ h => h
      rintro args _ ⟨rfl, hargs⟩ _
      exact Agree.pure ⟨rfl, hop, hallowed, hargs⟩
    · exact Agree.pure ⟨rfl, hop, hallowed, [], 0, rfl, ⟨List.Pairwise.nil, by simp, by simp⟩, by simp⟩
  refine agree_eat (k := 0) h (by decide) (fun _ => ?_) (hrest _ none (by simp)) (by omega)
  simp only [if_true]
  refine Agrees.guard Iff.rfl (agree_fail h) fun hupdate => ?_
  refine Agrees.andThen ((agree_names h (by decide)).map (Q := fun x y => x = y ∧
    ∀ ns ∈ x, operation = "update" ∧ ∀ n ∈ ns, isIdent n = true) ?_) ?_
  · rintro ns _ ⟨rfl, hns⟩
    refine ⟨rfl, fun ms hms => ?_⟩
    cases hms
    exact ⟨Classical.not_not.1 hupdate, hns⟩
  · rintro allowed _ ⟨rfl, hallowed⟩
    exact hrest _ allowed hallowed

omit h in
theorem cardinality_mem (list nullable : Bool) : cardinality list nullable ∈ ["list", "optional", "single"] := by
  cases list <;> cases nullable <;> decide

/-- One slot at two positions. -/
def SameSlot (s t : SlotDecl) : Prop := s.unplaced = t.unplaced ∧ s.WellFormed

/-- The rest of a slot, once its shape is read. -/
theorem agree_slotRest {name model : String} (hname : isIdent name = true)
    (hmodel : isIdent model = true) {p q : Pos}
    {s : String × Option (List String) × Json} (hs : SlotHead s) (list nullable : Bool) :
    Agrees all all' b 0 SameSlot
      (Scan.loop directive slotDirective none >>= fun d =>
        pure ⟨name, model, s.1, cardinality list nullable, s.2.1, s.2.2, d, p⟩)
      (Scan.loop directive slotDirective none >>= fun d =>
        pure ⟨name, model, s.1, cardinality list nullable, s.2.1, s.2.2, d, q⟩) := by
  refine Agrees.andThen (Agree.loop (agree_directive h) (fun _ _ => agree_slotDirective h) rfl
    fun _ _ hw => Within.length h hw) ?_
  rintro d _ rfl
  exact Agree.pure ⟨rfl, hname, hmodel, hs.operation, cardinality_mem list nullable, hs.allowed, hs.bindings⟩

theorem agree_slot {name model : String} (hname : isIdent name = true) (hmodel : isIdent model = true)
    {p q : Pos} :
    Agrees all all' b 1 SameSlot (slot name model p) (slot name model q) := by
  refine Agrees.seq (k := 0) (agree_slotHead h) ?_
  rintro s _ ⟨rfl, hs⟩ _
  refine Agrees.andThen (agree_actionShape h) ?_
  rintro shape _ ⟨rfl, -⟩
  exact agree_slotRest h hname hmodel hs shape.1 shape.2

theorem agree_blockSlot : Agrees all all' b 1 SameSlot blockSlot blockSlot := by
  refine agree_pos h fun p q _ => ?_
  refine (Agrees.seq (k := 2) (agree_ident h) ?_).weaken (by omega) fun _ _ h => h
  rintro name _ ⟨rfl, hname⟩ _
  refine Agrees.seq (k := 1) (agree_ident h) ?_
  rintro model _ ⟨rfl, hmodel⟩ _
  refine Agrees.seq (k := 0) (agree_slotHead h) ?_
  rintro s _ ⟨rfl, hs⟩ _
  refine Agrees.andThen (agree_brackets h) ?_
  rintro list _ rfl
  refine Agrees.ite Iff.rfl (fun _ => ?_) fun _ => ?_
  · exact agree_slotRest h hname hmodel hs list false
  · refine Agrees.andThen (agree_eats h (by decide)) ?_
    rintro nullable _ rfl
    exact agree_slotRest h hname hmodel hs list nullable

/-! ## Operations -/

/-- One list of declarations at two places. -/
def SameAll {γ : Type} (unplaced : γ → γ) (wellFormed : γ → Prop) (xs ys : List γ) : Prop :=
  xs.map unplaced = ys.map unplaced ∧ ∀ x ∈ xs, wellFormed x

omit h in
theorem SameAll.nil {γ : Type} {unplaced : γ → γ} {wellFormed : γ → Prop} : SameAll unplaced wellFormed [] [] :=
  ⟨rfl, by simp⟩

omit h in
theorem SameAll.push {γ : Type} {unplaced : γ → γ} {wellFormed : γ → Prop} {xs ys : List γ}
    (hs : SameAll unplaced wellFormed xs ys) {x y : γ} (hxy : unplaced x = unplaced y) (hx : wellFormed x) :
    SameAll unplaced wellFormed (xs ++ [x]) (ys ++ [y]) := by
  refine ⟨by simp [hs.1, hxy], fun z hz => ?_⟩
  rcases List.mem_append.1 hz with hz | hz
  · exact hs.2 z hz
  · exact List.mem_singleton.1 hz ▸ hx

abbrev SameInputs (finite : String → Bool) : List ActionInputDecl → List ActionInputDecl → Prop :=
  SameAll (·.unplaced) (·.WellFormed finite)

theorem agree_operationInputs {finite : String → Bool} :
    Agrees all all' b 1 (SameInputs finite) (operationInputs finite) (operationInputs finite) := by
  refine Agrees.seq (k := 0) (agree_need h (by decide)) fun _ _ _ _ => agree_upTo h (by decide) ?_ .nil
  intro xs ys hxs
  refine agree_pos h fun p q _ => ?_
  refine (Agrees.seq (k := 1) (agree_ident h) ?_).weaken (by omega) fun _ _ h => h
  rintro name _ ⟨rfl, hname⟩ _
  refine Agrees.seq (k := 0) (agree_ident h) ?_
  rintro typeName _ ⟨rfl, htype⟩ _
  -- once the input is read
  have hrest : ∀ b' (x y : ActionInputDecl), x.unplaced = y.unplaced ∧ x.WellFormed finite →
      Agrees all all' b' 0 (SameInputs finite) (do
        if (← peek) = eof then fail "expected )"
        comma ")"
        return xs ++ [x]) (do
        if (← peek) = eof then fail "expected )"
        comma ")"
        return ys ++ [y]) := by
    rintro b' x y ⟨hxy, hx⟩
    refine agree_peek h fun s => Agrees.guard Iff.rfl (agree_fail h) fun _ => ?_
    exact Agrees.andThen (agree_comma h) fun _ _ _ => Agree.pure (hxs.push hxy hx)
  refine agree_peek h fun s => Agrees.ite Iff.rfl (fun _ => ?_) fun _ => ?_
  · refine (Agrees.seq (k := 0) ((agree_slot h hname htype).map
      (Q := fun x y => x.unplaced = y.unplaced ∧ x.WellFormed finite) ?_)
      fun x y hxy _ => hrest _ x y hxy).weaken (by omega) fun _ _ h => h
    rintro x y ⟨hxy, hx⟩
    exact ⟨congrArg ActionInputDecl.model hxy, hx⟩
  · refine Agrees.andThen ((agree_fieldAfterHeader h hname htype).map
      (Q := fun x y => x.unplaced = y.unplaced ∧ x.WellFormed finite) ?_) fun x y hxy => hrest _ x y hxy
    rintro x y ⟨hxy, hx⟩
    exact ⟨congrArg ActionInputDecl.value hxy, hx⟩

abbrev SameOutputs (finite : String → Bool) : List ActionOutputDecl → List ActionOutputDecl → Prop :=
  SameAll (·.unplaced) (·.field.WellFormed finite true)

/-- One sequence at two positions. -/
def SameSequence (s t : Option SequenceDecl) : Prop :=
  s.map (·.unplaced) = t.map (·.unplaced) ∧ ∀ x ∈ s, IsArguments x.arguments

omit h in
theorem SameSequence.isSome {s t : Option SequenceDecl} (hs : SameSequence s t) : s.isSome = t.isSome := by
  simpa using congrArg Option.isSome hs.1

omit h in
theorem SameSequence.some {args : Json} (hargs : IsArguments args) {p q : Pos} :
    SameSequence (some ⟨args, p⟩) (some ⟨args, q⟩) := by
  refine ⟨rfl, fun x hx => ?_⟩
  cases hx
  exact hargs

variable (all all') in
/-- Leading directives at two places. -/
structure SameLeading (s t : Leading) : Prop where
  version : s.version = t.version
  versionSeen : s.versionSeen = t.versionSeen
  sequence : SameSequence s.sequence t.sequence
  range : IsVersion s.version
  unset : s.versionSeen = false → s.version = 1
  placed : ∀ x ∈ s.sequence, ∀ y ∈ t.sequence, Placed all all' x.pos y.pos

theorem agree_leadingDirective {s t : Leading} (hst : SameLeading all all' s t) :
    Agrees all all' b 1 (SameLeading all all') (leadingDirective s) (leadingDirective t) := by
  refine agree_pos h fun p q hpq => ?_
  refine Agrees.seq (k := 0) (agree_need h (by decide)) fun _ _ _ _ => ?_
  refine (Agrees.seq (k := 0) (agree_ident h) ?_).weaken (by omega) fun _ _ h => h
  rintro attr _ ⟨rfl, -⟩ _
  refine Agrees.ite Iff.rfl (fun _ => ?_) fun _ => Agrees.ite Iff.rfl (fun _ => ?_) fun _ => agree_fail h
  · refine (Agrees.seq (k := 0) (agree_version h hst.versionSeen) ?_).weaken (by omega) fun _ _ h => h
    rintro v _ ⟨rfl, hv⟩ _
    exact Agree.pure { hst with version := rfl, versionSeen := rfl, range := hv, unset := nofun }
  · refine Agrees.guard (by rw [hst.sequence.isSome]) (agree_fail h) fun _ => ?_
    refine (Agrees.seq (k := 0) (agree_arguments h) ?_).weaken (by omega) fun _ _ h => h
    rintro args _ ⟨rfl, hargs⟩ _
    refine Agree.pure { hst with sequence := .some hargs, placed := ?_ }
    intro x hx y hy
    cases hx
    cases hy
    exact hpq

/-! ## Declarations -/

/-- The values of an enum as they are read. -/
def SameValues (s t : List String × List (String × Option String)) : Prop :=
  s = t ∧ (∀ v ∈ s.1, isIdent v = true) ∧ (s.2.map (·.1)).Sublist s.1

theorem agree_enumValue {s t : List String × List (String × Option String)} (hst : SameValues s t) :
    Agrees all all' b 1 SameValues (enumValue s) (enumValue t) := by
  obtain ⟨rfl, hvalues, hsub⟩ := hst
  refine Agrees.seq (k := 0) (agree_ident h) ?_
  rintro value _ ⟨rfl, hvalue⟩ _
  refine Agrees.andThen (Agree.loop (agree_directive h) ?_ rfl fun _ _ hw => Within.length h hw) ?_
  · rintro mark _ rfl
    refine Agrees.seq (k := 0) (agree_need h (by decide)) fun _ _ _ _ => ?_
    refine (Agrees.seq (k := 0) (agree_ident h) ?_).weaken (by omega) fun _ _ h => h
    rintro attr _ ⟨rfl, -⟩ _
    refine Agrees.guard Iff.rfl (agree_fail h) fun _ => Agrees.guard Iff.rfl (agree_fail h) fun _ => ?_
    refine Agrees.andThen (agree_deprecation h) ?_
    rintro reason _ rfl
    exact Agree.pure rfl
  · rintro mark _ rfl
    refine Agrees.andThen (agree_eats h (by decide)) fun _ _ _ => Agree.pure ⟨rfl, fun v hv => ?_, ?_⟩
    · rcases List.mem_append.1 hv with hv | hv
      · exact hvalues v hv
      · exact List.mem_singleton.1 hv ▸ hvalue
    · rw [List.map_append]
      refine hsub.append ?_
      cases mark with
      | none => exact List.nil_sublist _
      | some reason => exact List.Sublist.refl _

/-- A model's body at two places. -/
structure SameBody (finite : String → Bool) (abstractModel : Bool) (s t : ModelBody) : Prop where
  bootstrap : s.bootstrap = t.bootstrap
  version : s.version = t.version
  versionSeen : s.versionSeen = t.versionSeen
  identity : s.identity = t.identity
  fields : SameAll (·.unplaced) (·.WellFormed finite false) s.fields t.fields
  unique : SameAll (·.unplaced) (fun u => ∀ n ∈ u.fields, isIdent n = true) s.unique t.unique
  range : IsVersion s.version
  names : ∀ n ∈ s.identity, isIdent n = true
  bare : abstractModel = true → s.version = 1 ∧ s.bootstrap = false ∧ s.identity = [] ∧ s.unique = []

theorem agree_modelItem {finite : String → Bool} {abstractModel : Bool} {s t : ModelBody}
    (hst : SameBody finite abstractModel s t) :
    Agrees all all' b 1 (SameBody finite abstractModel) (modelItem finite abstractModel s)
      (modelItem finite abstractModel t) := by
  refine agree_pos h fun p q hpq => ?_
  refine agree_eat (k := 0) h (by decide) (fun _ => ?_) ?_ (by omega)
  · simp only [if_true]
    refine (Agrees.seq (k := 0) (agree_need h (by decide)) fun _ _ _ _ => ?_).weaken (by omega) fun _ _ h => h
    refine (Agrees.seq (k := 0) (agree_ident h) ?_).weaken (by omega) fun _ _ h => h
    rintro attr _ ⟨rfl, -⟩ _
    refine Agrees.guard Iff.rfl (agree_failAt hpq) fun hconcrete => ?_
    refine Agrees.ite Iff.rfl (fun _ => ?_) fun _ => Agrees.ite Iff.rfl (fun _ => ?_) fun _ => ?_
    · refine Agrees.guard (by rw [hst.bootstrap]) (agree_failAt hpq) fun _ => ?_
      exact Agree.pure { hst with bootstrap := rfl, bare := fun ha => absurd ha hconcrete }
    · refine (Agrees.seq (k := 0) (agree_version h hst.versionSeen) ?_).weaken (by omega) fun _ _ h => h
      rintro v _ ⟨rfl, hv⟩ _
      exact Agree.pure { hst with
        version := rfl, versionSeen := rfl, range := hv, bare := fun ha => absurd ha hconcrete }
    · refine (Agrees.seq (k := 0) (agree_need h (by decide)) fun _ _ _ _ => ?_).weaken (by omega) fun _ _ h => h
      refine Agrees.andThen (agree_names h (by decide)) ?_
      rintro fields _ ⟨rfl, hfields⟩
      refine Agrees.ite Iff.rfl (fun _ => ?_) fun _ => Agrees.ite Iff.rfl (fun _ => ?_) fun _ => agree_fail h
      · refine Agrees.guard (by rw [hst.identity]) (agree_fail h) fun _ => ?_
        exact Agree.pure { hst with identity := rfl, names := hfields, bare := fun ha => absurd ha hconcrete }
      · exact Agree.pure
          { hst with unique := hst.unique.push rfl hfields, bare := fun ha => absurd ha hconcrete }
  · simp only [Bool.false_eq_true, if_false]
    refine Agrees.seq (k := 0) (agree_field h) ?_
    rintro f g ⟨hfg, hf⟩ _
    exact Agree.pure { hst with fields := hst.fields.push hfg hf }

/-- A mutation's body at two places. -/
structure SameMutation (s t : MutationBody) : Prop where
  version : s.version = t.version
  versionSeen : s.versionSeen = t.versionSeen
  sequence : SameSequence s.sequence t.sequence
  slots : SameAll (·.unplaced) (·.WellFormed) s.slots t.slots
  range : IsVersion s.version

theorem agree_mutationItem {s t : MutationBody} (hst : SameMutation s t) :
    Agrees all all' b 1 SameMutation (mutationItem s) (mutationItem t) := by
  refine agree_pos h fun p q _ => ?_
  refine agree_eat (k := 0) h (by decide) (fun _ => ?_) ?_ (by omega)
  · simp only [if_true]
    refine (Agrees.seq (k := 0) (agree_need h (by decide)) fun _ _ _ _ => ?_).weaken (by omega) fun _ _ h => h
    refine (Agrees.seq (k := 0) (agree_ident h) ?_).weaken (by omega) fun _ _ h => h
    rintro attr _ ⟨rfl, -⟩ _
    refine Agrees.ite Iff.rfl (fun _ => ?_) fun _ => ?_
    · refine (Agrees.seq (k := 0) (agree_arguments h) ?_).weaken (by omega) fun _ _ h => h
      rintro args _ ⟨rfl, hargs⟩ _
      exact Agree.pure { hst with sequence := .some hargs }
    · refine Agrees.guard Iff.rfl (agree_fail h) fun _ => ?_
      refine (Agrees.seq (k := 0) (agree_version h hst.versionSeen) ?_).weaken (by omega) fun _ _ h => h
      rintro v _ ⟨rfl, hv⟩ _
      exact Agree.pure { hst with version := rfl, versionSeen := rfl, range := hv }
  · simp only [Bool.false_eq_true, if_false]
    refine Agrees.seq (k := 0) (agree_blockSlot h) ?_
    rintro x y ⟨hxy, hx⟩ _
    exact Agree.pure { hst with slots := hst.slots.push hxy hx }

abbrev SamePrerequisiteFields : List PrerequisiteField → List PrerequisiteField → Prop :=
  SameAll (·.unplaced) fun f => isIdent f.name = true ∧ isIdent f.typeName = true

theorem agree_prerequisiteField {s t : List PrerequisiteField} (hst : SamePrerequisiteFields s t) :
    Agrees all all' b 1 SamePrerequisiteFields (prerequisiteField s) (prerequisiteField t) := by
  refine agree_pos h fun p q _ => ?_
  refine (Agrees.seq (k := 1) (agree_ident h) ?_).weaken (by omega) fun _ _ h => h
  rintro name _ ⟨rfl, hname⟩ _
  refine Agrees.seq (k := 0) (agree_ident h) ?_
  rintro typeName _ ⟨rfl, htype⟩ _
  exact Agrees.andThen (agree_comma h) fun _ _ _ => Agree.pure (hst.push rfl ⟨hname, htype⟩)

theorem agree_operationOutput {finite : String → Bool} {xs ys : List ActionOutputDecl}
    (hxs : SameOutputs finite xs ys) :
    Agrees all all' b 1 (fun xs ys => SameOutputs finite xs ys ∧ xs ≠ []) (operationOutput finite xs)
      (operationOutput finite ys) := by
  refine agree_peek h fun s => Agrees.guard Iff.rfl (agree_fail h) fun _ => ?_
  refine Agrees.seq (k := 0) (agree_field h) ?_
  rintro x y ⟨hxy, hx⟩ _
  exact Agrees.andThen (agree_eats h (by decide)) fun _ _ _ =>
    Agree.pure ⟨hxs.push (congrArg ActionOutputDecl.mk hxy) hx, by simp⟩

theorem agree_operationOutputs {finite : String → Bool} :
    Agrees all all' b 0 (SameOutputs finite) (operationOutputs finite) (operationOutputs finite) := by
  refine agree_upTo h (by decide) ?_ .nil
  intro xs ys hxs
  exact Agree.weaken (agree_operationOutput h hxs) (Nat.le_refl _) fun _ _ h => h.1

/-- Where the block is not closed at once, the first round reads an output. -/
theorem agree_someOutputs {finite : String → Bool} {t : Token} {ts us : List Token}
    (hw : Within all all' (t :: ts) us)
    (hopen : t.text ≠ "\x7d") : Outcomes (Within all all') (Located all all') 1
      (fun xs ys => SameOutputs finite xs ys ∧ xs ≠ []) (t :: ts) ((operationOutputs finite).run (t :: ts))
      ((operationOutputs finite).run us) := by
  obtain ⟨i, _, u, _, us', -, -, heq, rfl, htext, -⟩ := h.heads hw
  cases heq
  have hmore : ∀ (v : Token) vs, v.text ≠ "\x7d" → (do return !(← eat "\x7d") : Parser Bool).run
    (v :: vs) = .ok (true, v :: vs) := by
    intro v vs hv
    simp [eat, peek, token, hv]
  have hrounds : ∀ (v : Token) vs, v.text ≠ "\x7d" → (operationOutputs finite).run (v :: vs) =
      (operationOutput finite [] >>= Scan.rounds (do return !(← eat "\x7d")) (operationOutput finite)
        (v :: vs).length).run (v :: vs) := by
    intro v vs hv
    unfold operationOutputs upTo Scan.loop
    rw [run_bind_ok (run_get _), Scan.rounds, run_bind_ok (hmore v vs hv)]
    rfl
  rw [hrounds t ts hopen, hrounds u us' (htext ▸ hopen), ← Within.length h hw]
  refine Agrees.seq (k := 0) (agree_operationOutput h .nil) ?_ _ _ hw (Nat.le_refl _)
  intro xs ys hxs _
  exact Agree.rounds (by simp) (agree_eat (k := 0) h (by decide) (fun _ => Agree.pure rfl)
    (Agree.pure rfl) (by omega))
    (fun _ _ hxs => agree_operationOutput h hxs.1) hxs

theorem agree_loadRest {finite : String → Bool} {s t : Leading} (hst : SameLeading all all' s t)
    {name : String} (hname : isIdent name = true) {p q : Pos} :
    Agrees all all' b 1 (fun x y => x.unplaced = y.unplaced ∧ x.WellFormed finite) (loadRest finite s name p)
      (loadRest finite t name q) := by
  unfold loadRest
  rcases hs : s.sequence with _ | x <;> rcases ht : t.sequence with _ | y
  · refine (Agrees.seq (k := 2) (agree_operationInputs h) fun xs ys hxs _ => ?_).weaken
      (by omega) fun _ _ h => h
    refine agree_peek h fun s => Agrees.guard Iff.rfl (agree_fail h) fun _ => ?_
    refine Agrees.seq (k := 1) (agree_need h (by decide)) fun _ _ _ _ => ?_
    refine agree_head h fun v vs us hw hb => ?_
    by_cases hclosed : v.text = "\x7d"
    · simp only [hclosed, if_true]
      exact agree_pos h (fun p q hpq => Agrees.fails (agree_failAt hpq)) _ _ hw hb
    · simp only [hclosed, if_false]
      refine (agree_someOutputs h hw hclosed).bind (l := 0) hb ?_
      rintro os ps ⟨hos, hsome⟩ _
      refine Agree.pure ⟨?_, hname, hst.range, hxs.2, hos.2, hsome⟩
      simp [LoadDecl.unplaced, hst.version, hxs.1, hos.1]
  · have hsome := hst.sequence.isSome
    simp [hs, ht] at hsome
  · have hsome := hst.sequence.isSome
    simp [hs, ht] at hsome
  · exact Agrees.fails (agree_failAt (hst.placed x hs y ht))

theorem agree_operationRest {finite : String → Bool} {s t : Leading} (hst : SameLeading all all' s t)
    {kind : CallKind} {name : String} (hname : isIdent name = true) {p q : Pos} :
    Agrees all all' b 1 (fun x y => x.unplaced = y.unplaced ∧ x.WellFormed finite) (operationRest finite s kind name p)
      (operationRest finite t kind name q) := by
  -- once the outputs are read
  have hrest : ∀ xs ys, SameInputs finite xs ys → ∀ os ps, SameOutputs finite os ps →
      ActionDecl.unplaced ⟨name, kind, s.version, xs, os, s.sequence, p⟩ =
        ActionDecl.unplaced ⟨name, kind, t.version, ys, ps, t.sequence, q⟩ ∧
      ActionDecl.WellFormed finite ⟨name, kind, s.version, xs, os, s.sequence, p⟩ := by
    intro xs ys hxs os ps hos
    refine ⟨?_, hname, hst.range, hxs.2, hos.2, hst.sequence.2⟩
    simp [ActionDecl.unplaced, hst.version, hst.sequence.1, hxs.1, hos.1]
  refine Agrees.seq (k := 0) (agree_operationInputs h) fun xs ys hxs _ => ?_
  refine agree_eat (k := 0) h (by decide) (fun _ => ?_) (Agree.pure (hrest xs ys hxs [] [] .nil)) (by omega)
  exact Agrees.andThen (agree_operationOutputs h) fun os ps hos => Agree.pure (hrest xs ys hxs os ps hos)

/-- All declarations at two places. -/
structure SameDeclarations (finite : String → Bool) (d e : Declarations) : Prop where
  enums : SameAll (·.unplaced) (·.WellFormed) d.enums e.enums
  models : SameAll (·.unplaced) (·.WellFormed finite) d.models e.models
  mutations : SameAll (·.unplaced) (·.WellFormed) d.mutations e.mutations
  actions : SameAll (·.unplaced) (·.WellFormed finite) d.actions e.actions
  loads : SameAll (·.unplaced) (·.WellFormed finite) d.loads e.loads
  prerequisites : SameAll (·.unplaced) (·.WellFormed) d.prerequisites e.prerequisites

theorem agree_blockRest {finite : String → Bool} {s t : Leading} (hst : SameLeading all all' s t)
    {kind name : String} (hname : isIdent name = true) {abstractModel : Bool}
    (hbare : abstractModel = true → s.versionSeen = false) {parent : Option String}
    (hparent : ∀ x ∈ parent, isIdent x = true) {p q : Pos} {d e : Declarations}
    (hde : SameDeclarations finite d e) :
    Agrees all all' b 0 (SameDeclarations finite) (blockRest finite s kind name abstractModel parent p d)
      (blockRest finite t kind name abstractModel parent q e) := by
  refine Agrees.ite Iff.rfl (fun _ => ?_) fun _ => Agrees.ite Iff.rfl (fun _ => ?_) fun _ =>
    Agrees.ite Iff.rfl (fun _ => ?_) fun _ => agree_fail h
  · refine Agrees.andThen (agree_upTo h (by decide) (fun _ _ => agree_enumValue h) ⟨rfl, by simp, by simp⟩) ?_
    rintro x _ ⟨rfl, hvalues, hsub⟩
    exact Agree.pure { hde with enums := hde.enums.push rfl ⟨hname, hvalues, hsub⟩ }
  · refine Agrees.andThen (agree_upTo (R := SameBody finite abstractModel) h (by decide)
      (fun _ _ => agree_modelItem h) ?_) ?_
    · exact {
        bootstrap := rfl
        version := hst.version
        versionSeen := hst.versionSeen
        identity := rfl
        fields := .nil
        unique := .nil
        range := hst.range
        names := by simp
        bare := fun ha => ⟨hst.unset (hbare ha), rfl, rfl, rfl⟩ }
    · intro x y hxy
      refine Agree.pure { hde with models := hde.models.push ?_ ?_ }
      · simp [ModelDecl.unplaced, hxy.bootstrap, hxy.version, hxy.identity, hxy.fields.1, hxy.unique.1]
      · exact ⟨hname, hxy.bare, hparent, hxy.range, hxy.names, hxy.fields.2, hxy.unique.2⟩
  · refine Agrees.andThen (agree_upTo (R := SameMutation) h (by decide) (fun _ _ => agree_mutationItem h)
      ⟨rfl, rfl, ⟨rfl, by simp⟩, .nil, by unfold IsVersion; decide⟩) fun x y hxy => ?_
    refine Agree.pure { hde with mutations := hde.mutations.push ?_ ?_ }
    · simp [MutationDecl.unplaced, hxy.version, hxy.sequence.1, hxy.slots.1]
    · exact ⟨hname, hxy.range, hxy.slots.2, hxy.sequence.2⟩

theorem agree_operationKind {kind : String} : Agrees all all' b 0 (fun x y => x = y)
    (operationKind kind) (operationKind kind) := by
  refine Agrees.ite Iff.rfl (fun _ => Agree.pure rfl) fun _ => ?_
  refine Agrees.ite Iff.rfl (fun _ => ?_) fun _ => Agree.pure rfl
  exact agree_peek h fun s => Agrees.ite Iff.rfl (fun _ => Agree.pure rfl) fun _ => Agree.pure rfl

theorem agree_parentName {kind : String} :
    Agrees all all' b 0 (fun x y => x = y ∧ ∀ n ∈ x, isIdent n = true) (parentName kind) (parentName kind) := by
  refine Agrees.ite Iff.rfl (fun _ => ?_) fun _ => Agree.pure ⟨rfl, by simp⟩
  refine agree_eat (k := 0) h (by decide) (fun _ => ?_) (Agree.pure ⟨rfl, by simp⟩) (by omega)
  refine (Agrees.seq (k := 0) (agree_ident h) ?_).weaken (by omega) fun _ _ h => h
  rintro parent _ ⟨rfl, hparent⟩ _
  refine Agree.pure ⟨rfl, fun n hn => ?_⟩
  cases hn
  exact hparent

theorem agree_declarationRest {finite : String → Bool} {s t : Leading}
    (hst : SameLeading all all' s t) {kind name : String} (hname : isIdent name = true)
    {abstractModel : Bool} {p q : Pos} (hpq : Placed all all' p q) {d e : Declarations}
    (hde : SameDeclarations finite d e) :
    Agrees all all' b 0 (SameDeclarations finite) (declarationRest finite s kind name abstractModel p d)
      (declarationRest finite t kind name abstractModel q e) := by
  refine Agrees.andThen (agree_operationKind h) ?_
  rintro operation _ rfl
  refine Agrees.guard (by rw [hst.versionSeen, hst.sequence.isSome]) (agree_fail h) fun _ => ?_
  refine Agrees.guard (by rw [hst.sequence.isSome]) (agree_fail h) fun _ => ?_
  refine Agrees.ite Iff.rfl (fun _ => ?_) fun _ => ?_
  · refine (Agrees.seq (k := 0) (agree_loadRest h hst hname) ?_).weaken (by omega) fun _ _ h => h
    rintro x y ⟨hxy, hx⟩ _
    exact Agree.pure { hde with loads := hde.loads.push hxy hx }
  cases operation with
  | some operation =>
    refine (Agrees.seq (k := 0) (agree_operationRest h hst hname) ?_).weaken (by omega) fun _ _ h => h
    rintro x y ⟨hxy, hx⟩ _
    exact Agree.pure { hde with actions := hde.actions.push hxy hx }
  | none =>
    refine Agrees.ite Iff.rfl (fun _ => ?_) fun _ => ?_
    · refine (Agrees.seq (k := 0) (agree_need h (by decide)) fun _ _ _ _ => ?_).weaken (by omega) fun _ _ h => h
      refine Agrees.andThen (agree_upTo h (by decide) (fun _ _ =>
        agree_prerequisiteField h) .nil) fun xs ys hxs => ?_
      refine Agree.pure { hde with prerequisites := hde.prerequisites.push ?_ ⟨hname, hxs.2⟩ }
      simp [PrerequisiteDecl.unplaced, hxs.1]
    · refine Agrees.andThen (agree_parentName h) ?_
      rintro parent _ ⟨rfl, hparent⟩
      refine Agrees.guard (by rw [hst.versionSeen]) (agree_failAt hpq) fun hbare => ?_
      refine (Agrees.seq (k := 0) (agree_need h (by decide)) fun _ _ _ _ => ?_).weaken (by omega) fun _ _ h => h
      exact agree_blockRest h hst hname (fun ha => by simpa [ha] using hbare) hparent hde

theorem agree_declaration {finite : String → Bool} {d e : Declarations} (hde : SameDeclarations finite d e) :
    Agrees all all' b 1 (SameDeclarations finite) (declaration finite d) (declaration finite e) := by
  refine Agrees.andThen (Agree.loop (R := SameLeading all all') (agree_peek h fun _ => Agree.pure rfl)
    (fun _ _ => agree_leadingDirective h) ?_ fun _ _ hw => Within.length h hw) fun s t hst => ?_
  · exact ⟨rfl, rfl, ⟨rfl, by simp⟩, by unfold IsVersion; decide, fun _ => rfl, by simp⟩
  refine agree_peek h fun next => Agrees.guard ?_ (agree_fail h) fun _ => ?_
  · rw [hst.versionSeen, hst.sequence.isSome]
  refine agree_pos h fun p q hpq => agree_peek h fun next => Agrees.guard Iff.rfl (agree_fail h) fun _ => ?_
  refine Agrees.andThen (agree_eats h (by decide)) ?_
  rintro abstractModel _ rfl
  -- the name is taken in each case
  have hrest : ∀ b' kind, Agrees all all' b' 1 (SameDeclarations finite)
      (ident >>= fun name => declarationRest finite s kind name abstractModel p d)
      (ident >>= fun name => declarationRest finite t kind name abstractModel q e) := by
    intro b' kind
    refine Agrees.seq (k := 0) (agree_ident h) ?_
    rintro name _ ⟨rfl, hname⟩ _
    exact agree_declarationRest h hst hname hpq hde
  cases abstractModel with
  | true =>
    exact (Agrees.seq (agree_need h (by decide)) fun _ _ _ _ => hrest _ "model").weaken (by omega)
      fun _ _ h => h
  | false =>
    refine (Agree.weaken (k := 1) (l := 1) ?_ (Nat.le_refl _) fun _ _ h => h)
    exact agree_take h (fun kind _ _ => (hrest _ kind).weaken (by omega) fun _ _ h => h) (hrest _ eof)

theorem agree_declarations {finite : String → Bool} :
    Agrees all all' b 0 (SameDeclarations finite) (declarations finite) (declarations finite) := by
  refine Agrees.andThen (Agree.loop (agree_peek h fun _ => Agree.pure rfl) (fun _ _ => agree_declaration h) ?_
    fun _ _ hw => Within.length h hw) fun d e hde => ?_
  · exact ⟨.nil, .nil, .nil, .nil, .nil, .nil⟩
  · exact agree_pos h fun p q _ => Agree.pure ⟨hde.enums, hde.models, hde.mutations, hde.actions,
      hde.loads, hde.prerequisites⟩

theorem parse_aligned (finite : String → Bool) :
    Outcomes (Within all all') (Located all all') 0 (SameDeclarations finite) all ((declarations finite).run all)
      ((declarations finite).run all') := by
  obtain ⟨us, t, hall, -⟩ := h.lexes.last
  have hpos : 0 < all.length := by simp [hall]
  exact agree_declarations h all all' ⟨0, hpos, rfl, rfl⟩ (Nat.le_refl _)

end

theorem SameDeclarations.unplaced {finite : String → Bool} {d e : Declarations}
    (h : SameDeclarations finite d e) :
    d.unplaced = e.unplaced := by
  simp [Declarations.unplaced, h.enums.1, h.models.1, h.mutations.1, h.actions.1, h.loads.1, h.prerequisites.1]

theorem SameDeclarations.wellFormed {finite : String → Bool} {d e : Declarations}
    (h : SameDeclarations finite d e) :
    d.WellFormed finite :=
  ⟨h.enums.2, h.models.2, h.mutations.2, h.actions.2, h.loads.2, h.prerequisites.2⟩

/-- Whatever a source declares is well formed. -/
theorem parse_wellFormed {finite : String → Bool} {source : String} {d : Declarations}
    (h : parse finite source = .ok d) :
    d.WellFormed finite := by
  unfold parse at h
  cases hlex : lex source with
  | error e =>
    rw [hlex] at h
    cases h
  | ok ts =>
    rw [hlex] at h
    change (·.1) <$> (declarations finite).run ts = .ok d at h
    have halign : Aligned ts ts := { texts := rfl, numerals := fun _ _ _ _ => rfl, lexes := lex_lexes hlex }
    have hparse := parse_aligned halign finite
    cases hd : (declarations finite).run ts with
    | error e =>
      rw [hd] at h
      cases h
    | ok r =>
      rw [hd] at h hparse
      cases h
      exact hparse.1.wellFormed

/-- What parsing one source says about parsing another with the same tokens. -/
inductive SameParse (finite : String → Bool) (ts us : List Token) :
    Except String Declarations → Except String Declarations → Prop
  | declared {d e : Declarations} : d.unplaced = e.unplaced → d.WellFormed finite →
    SameParse finite ts us (.ok d) (.ok e)
  | refused {i : Nat} {t u : Token} {msg : String} : ts[i]? = some t → us[i]? = some u →
      SameParse finite ts us (.error (diagnostic t.pos msg)) (.error (diagnostic u.pos msg))

/-- **White space, comments and positions do not matter.** Two sources with the same tokens and the same number literals
both declare the same, which is well formed, or are both refused with one message at the same token. -/
theorem parse_layout (finite : String → Bool) {source source' : String} {ts us : List Token}
    (hts : lex source = .ok ts)
    (hus : lex source' = .ok us) (h : SameTokens ts us) :
    SameParse finite ts us (parse finite source) (parse finite source') := by
  have hparse := parse_aligned (show Aligned ts us from { toSameTokens := h, lexes := lex_lexes hts }) finite
  unfold parse
  rw [hts, hus]
  show SameParse finite ts us ((·.1) <$> (declarations finite).run ts) ((·.1) <$> (declarations finite).run us)
  cases hd : (declarations finite).run ts with
  | error e =>
    cases he : (declarations finite).run us with
    | error f =>
      rw [hd, he] at hparse
      obtain ⟨i, t, u, msg, ht, hu, rfl, rfl⟩ := hparse
      exact .refused ht hu
    | ok r =>
      rw [hd, he] at hparse
      exact hparse.elim
  | ok r =>
    cases he : (declarations finite).run us with
    | error f =>
      rw [hd, he] at hparse
      exact hparse.elim
    | ok r' =>
      rw [hd, he] at hparse
      exact .declared hparse.1.unplaced hparse.1.wellFormed

/-- White space, a comment and line ends between the tokens of one source. -/
theorem parse_layout_enum : SameParse (fun _ => true)
    [⟨"enum", 1, 1⟩, ⟨"A", 1, 6⟩, ⟨"\x7b", 1, 8⟩, ⟨"x", 1, 10⟩, ⟨",", 1, 11⟩, ⟨"y", 1, 13⟩,
    ⟨"\x7d", 1, 15⟩, ⟨eof, 1, 16⟩]
    [⟨"enum", 1, 1⟩, ⟨"A", 2, 1⟩, ⟨"\x7b", 2, 3⟩, ⟨"x", 2, 5⟩, ⟨",", 3, 1⟩, ⟨"y", 3, 3⟩,
    ⟨"\x7d", 3, 5⟩, ⟨eof, 3, 6⟩]
    (parse (fun _ => true) "enum A \x7b x, y \x7d") (parse (fun _ => true) "enum\nA \x7b x//\n, y \x7d") :=
  parse_layout _ (by rfl) (by rfl) (.of_gaps (by decide))

end Axton.Compiler
