import Axton.Compiler.Parse

/-!
# What a source can declare

The declarations a parse can leave, positions aside (`WellFormed`), and declarations with their positions erased
(`unplaced`).
-/

namespace Axton.Compiler

open Axton.Compiler.Parser (isIdent)

/-! ## Expressions -/

/-- `ident(.ident)*`. -/
inductive IsPath : String → Prop
  | ident {s : String} : isIdent s = true → IsPath s
  | dot {s t : String} : IsPath s → isIdent t = true → IsPath (s ++ "." ++ t)

/-- The keys of arguments: paths, and the places of the positional ones from 0 on. -/
structure ArgumentKeys (args : Fields) (n : Nat) : Prop where
  ordered : args.Ordered
  positional : ∀ i < n, args.contains (toString i) = true
  keys : ∀ e ∈ args, IsPath e.1 ∨ ∃ i < n, e.1 = toString i

/-- The values that `expression` reads. -/
inductive IsExpression : Json → Prop
  | str (s : String) : IsExpression (.str s)
  | arr {xs : List Json} : (∀ x ∈ xs, IsExpression x) → IsExpression (.arr xs)
  | call {name : String} {args : Fields} {n : Nat} : IsPath name → ArgumentKeys args n →
      (∀ e ∈ args, IsExpression e.2) →
      IsExpression (.obj [("arguments", .obj args), ("name", .str name)])

def IsArguments (v : Json) : Prop :=
  ∃ args n, v = .obj args ∧ ArgumentKeys args n ∧ ∀ e ∈ args, IsExpression e.2

def IsVersion (n : Nat) : Prop := 1 ≤ n ∧ n ≤ maxSafeInteger

/-! ## Fields and operands -/

section
variable (finite : String → Bool)

/-- No token has a plus sign, so a written exponent has none. -/
def DefaultExpr.WellFormed : DefaultExpr → Prop
  | .string _ => True
  | .number text => Parser.isNumber finite text = true ∧ '+' ∉ text.toList
  | .identifier name | .call name _ => isIdent name = true

def DefaultDecl.unplaced (d : DefaultDecl) : DefaultDecl := { d with pos := {} }

structure FieldDecl.WellFormed (action : Bool) (f : FieldDecl) : Prop where
  name : isIdent f.name = true
  typeName : isIdent f.typeName = true
  shape : action = true → ¬ (f.list = true ∧ f.nullable = true)
  ordered : f.attributes.Ordered
  attributes : ∀ e ∈ f.attributes, e.1 ∈ ["reference", "inverse", "requires"] ∧ IsArguments e.2
  default : ∀ d ∈ f.default, d.expr.WellFormed finite

def FieldDecl.unplaced (f : FieldDecl) : FieldDecl :=
  { f with default := f.default.map (·.unplaced), pos := {} }

structure SlotDecl.WellFormed (s : SlotDecl) : Prop where
  name : isIdent s.name = true
  model : isIdent s.model = true
  operation : s.operation ∈ ["create", "update", "delete"]
  cardinality : s.cardinality ∈ ["list", "optional", "single"]
  allowed : ∀ ns ∈ s.allowedPatchFields, s.operation = "update" ∧ ∀ n ∈ ns, isIdent n = true
  bindings : IsArguments s.relationBindings

def SlotDecl.unplaced (s : SlotDecl) : SlotDecl := { s with pos := {} }

def SequenceDecl.unplaced (s : SequenceDecl) : SequenceDecl := { s with pos := {} }

def ActionInputDecl.WellFormed : ActionInputDecl → Prop
  | .value f => f.WellFormed finite true
  | .model s => s.WellFormed

def ActionInputDecl.unplaced : ActionInputDecl → ActionInputDecl
  | .value f => .value f.unplaced
  | .model s => .model s.unplaced

def ActionOutputDecl.unplaced (o : ActionOutputDecl) : ActionOutputDecl := ⟨o.field.unplaced⟩

/-! ## Declarations -/

structure EnumDecl.WellFormed (e : EnumDecl) : Prop where
  name : isIdent e.name = true
  values : ∀ v ∈ e.values, isIdent v = true
  deprecated : (e.deprecated.map (·.1)).Sublist e.values

def EnumDecl.unplaced (e : EnumDecl) : EnumDecl := { e with pos := {} }

def UniqueDecl.unplaced (u : UniqueDecl) : UniqueDecl := { u with pos := {} }

structure ModelDecl.WellFormed (m : ModelDecl) : Prop where
  name : isIdent m.name = true
  bare : m.abstractModel = true → m.version = 1 ∧ m.bootstrap = false ∧ m.identity = [] ∧ m.unique = []
  parent : ∀ p ∈ m.parent, isIdent p = true
  version : IsVersion m.version
  identity : ∀ n ∈ m.identity, isIdent n = true
  fields : ∀ f ∈ m.fields, f.WellFormed finite false
  unique : ∀ u ∈ m.unique, ∀ n ∈ u.fields, isIdent n = true

def ModelDecl.unplaced (m : ModelDecl) : ModelDecl :=
  { m with fields := m.fields.map (·.unplaced), unique := m.unique.map (·.unplaced), pos := {} }

structure MutationDecl.WellFormed (m : MutationDecl) : Prop where
  name : isIdent m.name = true
  version : IsVersion m.version
  slots : ∀ s ∈ m.slots, s.WellFormed
  sequence : ∀ s ∈ m.sequence, IsArguments s.arguments

def MutationDecl.unplaced (m : MutationDecl) : MutationDecl :=
  { m with slots := m.slots.map (·.unplaced), sequence := m.sequence.map (·.unplaced), pos := {} }

structure ActionDecl.WellFormed (a : ActionDecl) : Prop where
  name : isIdent a.name = true
  version : IsVersion a.version
  inputs : ∀ i ∈ a.inputs, i.WellFormed finite
  outputs : ∀ o ∈ a.outputs, o.field.WellFormed finite true
  sequence : ∀ s ∈ a.sequence, IsArguments s.arguments

def ActionDecl.unplaced (a : ActionDecl) : ActionDecl :=
  { a with
    inputs := a.inputs.map (·.unplaced)
    outputs := a.outputs.map (·.unplaced)
    sequence := a.sequence.map (·.unplaced)
    pos := {} }

structure LoadDecl.WellFormed (l : LoadDecl) : Prop where
  name : isIdent l.name = true
  version : IsVersion l.version
  inputs : ∀ i ∈ l.inputs, i.WellFormed finite
  outputs : ∀ o ∈ l.outputs, o.field.WellFormed finite true
  some : l.outputs ≠ []

def LoadDecl.unplaced (l : LoadDecl) : LoadDecl :=
  { l with inputs := l.inputs.map (·.unplaced), outputs := l.outputs.map (·.unplaced), pos := {} }

structure PrerequisiteDecl.WellFormed (p : PrerequisiteDecl) : Prop where
  name : isIdent p.name = true
  fields : ∀ f ∈ p.fields, isIdent f.name = true ∧ isIdent f.typeName = true

def PrerequisiteField.unplaced (f : PrerequisiteField) : PrerequisiteField := { f with pos := {} }

def PrerequisiteDecl.unplaced (p : PrerequisiteDecl) : PrerequisiteDecl :=
  { p with fields := p.fields.map (·.unplaced), pos := {} }

structure Declarations.WellFormed (d : Declarations) : Prop where
  enums : ∀ e ∈ d.enums, e.WellFormed
  models : ∀ m ∈ d.models, m.WellFormed finite
  mutations : ∀ m ∈ d.mutations, m.WellFormed
  actions : ∀ a ∈ d.actions, a.WellFormed finite
  loads : ∀ l ∈ d.loads, l.WellFormed finite
  prerequisites : ∀ p ∈ d.prerequisites, p.WellFormed

/-- What is declared, wherever it stands. -/
def Declarations.unplaced (d : Declarations) : Declarations where
  enums := d.enums.map (·.unplaced)
  models := d.models.map (·.unplaced)
  mutations := d.mutations.map (·.unplaced)
  actions := d.actions.map (·.unplaced)
  loads := d.loads.map (·.unplaced)
  prerequisites := d.prerequisites.map (·.unplaced)

end

/-! ## Positions aside -/

section
variable (finite : String → Bool)

/-- A property of all members that does not see positions. -/
theorem forall_unplaced {γ : Type} (unplaced : γ → γ) (wellFormed : γ → Prop)
    (h : ∀ x, wellFormed (unplaced x) ↔ wellFormed x)
    (xs : List γ) : (∀ x ∈ xs.map unplaced, wellFormed x) ↔ ∀ x ∈ xs, wellFormed x := by
  simp [h]

theorem FieldDecl.wellFormed_unplaced (action : Bool) (f : FieldDecl) :
    f.unplaced.WellFormed finite action ↔ f.WellFormed finite action := by
  have hdefault : (∀ d ∈ f.default.map (·.unplaced), d.expr.WellFormed finite) ↔
      ∀ d ∈ f.default, d.expr.WellFormed finite := by
    cases f.default <;> simp [DefaultDecl.unplaced]
  exact ⟨fun ⟨hn, ht, hs, ho, ha, hd⟩ => ⟨hn, ht, hs, ho, ha, hdefault.1 hd⟩,
    fun ⟨hn, ht, hs, ho, ha, hd⟩ => ⟨hn, ht, hs, ho, ha, hdefault.2 hd⟩⟩

theorem SlotDecl.wellFormed_unplaced (s : SlotDecl) : s.unplaced.WellFormed ↔ s.WellFormed :=
  ⟨fun ⟨hn, hm, ho, hc, ha, hb⟩ => ⟨hn, hm, ho, hc, ha, hb⟩, fun ⟨hn, hm, ho, hc, ha, hb⟩ =>
    ⟨hn, hm, ho, hc, ha, hb⟩⟩

theorem ActionInputDecl.wellFormed_unplaced (i : ActionInputDecl) :
    i.unplaced.WellFormed finite ↔ i.WellFormed finite := by
  cases i with
  | value f => exact f.wellFormed_unplaced finite true
  | model s => exact s.wellFormed_unplaced

theorem ActionOutputDecl.wellFormed_unplaced (o : ActionOutputDecl) :
    o.unplaced.field.WellFormed finite true ↔ o.field.WellFormed finite true :=
  o.field.wellFormed_unplaced finite true

theorem sequence_unplaced (s : Option SequenceDecl) :
    (∀ x ∈ s.map (·.unplaced), IsArguments x.arguments) ↔ ∀ x ∈ s, IsArguments x.arguments := by
  cases s <;> simp [SequenceDecl.unplaced]

theorem EnumDecl.wellFormed_unplaced (e : EnumDecl) : e.unplaced.WellFormed ↔ e.WellFormed :=
  ⟨fun ⟨hn, hv, hd⟩ => ⟨hn, hv, hd⟩, fun ⟨hn, hv, hd⟩ => ⟨hn, hv, hd⟩⟩

theorem ModelDecl.wellFormed_unplaced (m : ModelDecl) : m.unplaced.WellFormed finite ↔ m.WellFormed finite := by
  have hfields := forall_unplaced _ _ (FieldDecl.wellFormed_unplaced finite false) m.fields
  have hunique := forall_unplaced UniqueDecl.unplaced (fun u => ∀ n ∈ u.fields, isIdent n = true)
    (fun _ => Iff.rfl) m.unique
  have hbare : m.unplaced.unique = [] ↔ m.unique = [] := by simp [unplaced]
  constructor
  · rintro ⟨hn, hb, hp, hv, hi, hf, hu⟩
    exact ⟨hn, fun ha => ⟨(hb ha).1, (hb ha).2.1, (hb ha).2.2.1, hbare.1 (hb ha).2.2.2⟩, hp, hv, hi,
      hfields.1 hf, hunique.1 hu⟩
  · rintro ⟨hn, hb, hp, hv, hi, hf, hu⟩
    exact ⟨hn, fun ha => ⟨(hb ha).1, (hb ha).2.1, (hb ha).2.2.1, hbare.2 (hb ha).2.2.2⟩, hp, hv, hi,
      hfields.2 hf, hunique.2 hu⟩

theorem MutationDecl.wellFormed_unplaced (m : MutationDecl) : m.unplaced.WellFormed ↔ m.WellFormed := by
  have hslots := forall_unplaced _ _ SlotDecl.wellFormed_unplaced m.slots
  have hsequence := sequence_unplaced m.sequence
  exact ⟨fun ⟨hn, hv, hs, hq⟩ => ⟨hn, hv, hslots.1 hs, hsequence.1 hq⟩, fun ⟨hn, hv, hs, hq⟩ =>
    ⟨hn, hv, hslots.2 hs, hsequence.2 hq⟩⟩

theorem ActionDecl.wellFormed_unplaced (a : ActionDecl) :
    a.unplaced.WellFormed finite ↔ a.WellFormed finite := by
  have hinputs := forall_unplaced _ _ (ActionInputDecl.wellFormed_unplaced finite) a.inputs
  have houtputs := forall_unplaced ActionOutputDecl.unplaced (fun o => o.field.WellFormed finite true)
    (ActionOutputDecl.wellFormed_unplaced finite) a.outputs
  have hsequence := sequence_unplaced a.sequence
  exact ⟨fun ⟨hn, hv, hi, ho, hq⟩ => ⟨hn, hv, hinputs.1 hi, houtputs.1 ho, hsequence.1 hq⟩,
    fun ⟨hn, hv, hi, ho, hq⟩ => ⟨hn, hv, hinputs.2 hi, houtputs.2 ho, hsequence.2 hq⟩⟩

theorem LoadDecl.wellFormed_unplaced (l : LoadDecl) : l.unplaced.WellFormed finite ↔ l.WellFormed finite := by
  have hinputs := forall_unplaced _ _ (ActionInputDecl.wellFormed_unplaced finite) l.inputs
  have houtputs := forall_unplaced ActionOutputDecl.unplaced (fun o => o.field.WellFormed finite true)
    (ActionOutputDecl.wellFormed_unplaced finite) l.outputs
  have hsome : l.unplaced.outputs ≠ [] ↔ l.outputs ≠ [] := by simp [unplaced]
  exact ⟨fun ⟨hn, hv, hi, ho, hs⟩ => ⟨hn, hv, hinputs.1 hi, houtputs.1 ho, hsome.1 hs⟩,
    fun ⟨hn, hv, hi, ho, hs⟩ => ⟨hn, hv, hinputs.2 hi, houtputs.2 ho, hsome.2 hs⟩⟩

theorem PrerequisiteDecl.wellFormed_unplaced (p : PrerequisiteDecl) : p.unplaced.WellFormed ↔ p.WellFormed := by
  have hfields := forall_unplaced PrerequisiteField.unplaced
    (fun f => isIdent f.name = true ∧ isIdent f.typeName = true)
    (fun _ => Iff.rfl) p.fields
  exact ⟨fun ⟨hn, hf⟩ => ⟨hn, hfields.1 hf⟩, fun ⟨hn, hf⟩ => ⟨hn, hfields.2 hf⟩⟩

theorem Declarations.wellFormed_unplaced (d : Declarations) :
    d.unplaced.WellFormed finite ↔ d.WellFormed finite := by
  have henums := forall_unplaced _ _ EnumDecl.wellFormed_unplaced d.enums
  have hmodels := forall_unplaced _ _ (ModelDecl.wellFormed_unplaced finite) d.models
  have hmutations := forall_unplaced _ _ MutationDecl.wellFormed_unplaced d.mutations
  have hactions := forall_unplaced _ _ (ActionDecl.wellFormed_unplaced finite) d.actions
  have hloads := forall_unplaced _ _ (LoadDecl.wellFormed_unplaced finite) d.loads
  have hprerequisites := forall_unplaced _ _ PrerequisiteDecl.wellFormed_unplaced d.prerequisites
  exact ⟨fun ⟨he, hm, hu, ha, hl, hp⟩ =>
      ⟨henums.1 he, hmodels.1 hm, hmutations.1 hu, hactions.1 ha, hloads.1 hl, hprerequisites.1 hp⟩,
    fun ⟨he, hm, hu, ha, hl, hp⟩ =>
      ⟨henums.2 he, hmodels.2 hm, hmutations.2 hu, hactions.2 ha, hloads.2 hl, hprerequisites.2 hp⟩⟩

theorem FieldDecl.unplaced_unplaced (f : FieldDecl) : f.unplaced.unplaced = f.unplaced := by
  cases hd : f.default <;> simp [unplaced, DefaultDecl.unplaced, hd]

theorem ActionInputDecl.unplaced_unplaced (i : ActionInputDecl) : i.unplaced.unplaced = i.unplaced := by
  cases i with
  | value f => exact congrArg ActionInputDecl.value f.unplaced_unplaced
  | model s => rfl

theorem ActionOutputDecl.unplaced_unplaced (o : ActionOutputDecl) : o.unplaced.unplaced = o.unplaced :=
  congrArg ActionOutputDecl.mk o.field.unplaced_unplaced

theorem Declarations.unplaced_unplaced (d : Declarations) : d.unplaced.unplaced = d.unplaced := by
  simp [unplaced, EnumDecl.unplaced, ModelDecl.unplaced, MutationDecl.unplaced, ActionDecl.unplaced,
    LoadDecl.unplaced, PrerequisiteDecl.unplaced, PrerequisiteField.unplaced, UniqueDecl.unplaced,
    SlotDecl.unplaced, SequenceDecl.unplaced, FieldDecl.unplaced_unplaced, ActionInputDecl.unplaced_unplaced,
    ActionOutputDecl.unplaced_unplaced, Function.comp_def]

end

end Axton.Compiler
