import ArrayLang.Pipeline.Execution
import ArrayLang.Proofs.Run
import ArrayLang.Proofs.Typing.Binding
import ArrayLang.Proofs.Typing.Computation

/-!
# Arguments and their types

Binding values and binding their types follow the same rules: both succeed or both fail for the same
reason, and the types of the bound values are the bound types. So the signature that a run specializes
a function for is the one that its argument types alone determine.
-/

namespace ArrayLang

open Binding

/-! ## Types of several values -/

namespace Value

/-- The value has the type. -/
def HasTy (v : Value) (ty : Ty) : Prop :=
  v.ty? = some ty

theorem tys?_eq_some_iff {vs : List Value} {types : List Ty} :
    tys? vs = some types ↔ List.Forall₂ HasTy vs types := by
  induction vs generalizing types with
  | nil =>
    rw [tys?, Option.some_inj, List.forall₂_nil_left_iff]
    exact eq_comm
  | cons v vs ih =>
    rw [tys?]
    constructor
    · intro h
      split at h
      · rename_i ty rest hty hrest
        cases h
        exact .cons hty (ih.1 hrest)
      · cases h
    · intro h
      cases h with
      | cons hty hrest => rw [show v.ty? = _ from hty, ih.2 hrest]

theorem fieldTys?_eq_some_iff {vs : List (String × Value)} {types : List (String × Ty)} :
    fieldTys? vs = some types ↔ List.Forall₂ (EntryRel HasTy) vs types := by
  induction vs generalizing types with
  | nil =>
    rw [fieldTys?, Option.some_inj, List.forall₂_nil_left_iff]
    exact eq_comm
  | cons entry vs ih =>
    obtain ⟨name, v⟩ := entry
    rw [fieldTys?]
    constructor
    · intro h
      split at h
      · rename_i ty rest hty hrest
        cases h
        exact .cons ⟨rfl, hty⟩ (ih.1 hrest)
      · cases h
    · intro h
      cases h with
      | @cons _ entry' _ _ hentry hrest =>
        obtain ⟨name', ty⟩ := entry'
        obtain ⟨rfl, hty⟩ := hentry
        rw [show v.ty? = _ from hty, ih.2 hrest]

theorem hasTy_ofLiteral (lit : Literal) :
    HasTy (Bindable.ofLiteral lit) (Bindable.ofLiteral lit) := by
  cases lit <;> rfl

theorem hasTy_ofRest {vs : List Value} {types : List Ty} (h : List.Forall₂ HasTy vs types) :
    HasTy (Bindable.ofRest vs) (Bindable.ofRest types) := by
  show (tuple vs).ty? = some (.tuple types)
  rw [ty?, tys?_eq_some_iff.2 h]
  rfl

end Value

/-! ## Binding -/

variable {args : List Value} {types : List Ty} {keywords : List (String × Value)}
  {keywordTypes : List (String × Ty)}

/-- Binding values of known types gives values of the types that binding the types gives, under the
same names and in the same order, or fails for the same reason. -/
theorem bindArgs_types (func : String) (params : Params) (nonlocals : List String)
    (hargs : Value.tys? args = some types) (hkeywords : Value.fieldTys? keywords = some keywordTypes) :
    (bindArgs func params nonlocals args keywords).map Value.fieldTys?
      = (bindArgs func params nonlocals types keywordTypes).map some := by
  have halike : Outcome.Alike (List.Forall₂ (EntryRel Value.HasTy))
      (bindArgs func params nonlocals args keywords)
      (bindArgs func params nonlocals types keywordTypes) :=
    bindArgs_alike Value.hasTy_ofLiteral (fun _ _ => Value.hasTy_ofRest)
      (Value.tys?_eq_some_iff.1 hargs) (Value.fieldTys?_eq_some_iff.1 hkeywords)
  generalize bindArgs func params nonlocals args keywords = r at halike
  generalize bindArgs func params nonlocals types keywordTypes = r' at halike
  cases halike with
  | error e => rfl
  | ok h => exact congrArg Except.ok (Value.fieldTys?_eq_some_iff.2 h)

/-- The types of bound values that all have one. -/
theorem Pipeline.paramTypes_of_fieldTys? (name : String) {bound : List (String × Value)}
    {params : List (String × Ty)} (h : Value.fieldTys? bound = some params) :
    paramTypes name bound = .ok params := by
  -- The positions are only read where a value has no type.
  have hfrom (k : Nat) : List.Forall₂ (fun (p : (String × Value) × Nat) (q : String × Ty) =>
      EntryRel Value.HasTy p.1 q) (bound.zipIdx k) params := by
    have hmap : (bound.zipIdx k).map (·.1) = bound := List.zipIdx_map_fst k bound
    rw [Value.fieldTys?_eq_some_iff, ← hmap, List.forall₂_map_left_iff] at h
    exact h
  unfold paramTypes
  refine Outcome.mapM_eq_ok.2 ((hfrom 0).imp fun p q hpq => ?_)
  obtain ⟨⟨param, value⟩, index⟩ := p
  obtain ⟨param', ty⟩ := q
  obtain ⟨rfl, hty⟩ := hpq
  dsimp only
  rw [show value.ty? = _ from hty]

/-! ## Runs -/

namespace Pipeline

open Run

theorem exec_source (name : String) (σ : State Workspace) :
    exec (source name) σ = match σ.context.session.sources.find? name with
      | some decl => (.ok decl, σ)
      | none => (.error (.error (.unknownFunction name)), σ) := by
  unfold source
  show exec (match σ.context.session.sources.find? name with
    | some decl => return decl
    | none => fail (.unknownFunction name) : Pipeline FnDecl) σ = _
  cases σ.context.session.sources.find? name <;> rfl

/-- A run on values prepares the function that compiling it for the types of the values prepares, and
fails as that does. -/
theorem exec_prepareTyped (hargs : Value.tys? args = some types) (fuel : Nat) (options : RunOptions)
    (name : String) (σ : State Workspace) :
    exec (do prepareTyped fuel options name (← bindTo name args)) σ
      = exec (do specializeAndOptimize fuel options name (← bindTo name types)) σ := by
  unfold bindTo
  rw [bind_assoc, bind_assoc, exec_bind, exec_bind, exec_source]
  cases σ.context.session.sources.find? name with
  | none => rfl
  | some decl =>
    dsimp only
    have hnone : Value.fieldTys? [] = some [] := rfl
    have hbind := bindArgs_types name decl.params decl.nonlocals hargs hnone
    cases hvalues : bindArgs name decl.params decl.nonlocals args [] with
    | error e =>
      rw [hvalues] at hbind
      cases htypes : bindArgs name decl.params decl.nonlocals types [] with
      | error e' =>
        rw [htypes] at hbind
        cases hbind
        rfl
      | ok params =>
        rw [htypes] at hbind
        cases hbind
    | ok bound =>
      rw [hvalues] at hbind
      cases htypes : bindArgs name decl.params decl.nonlocals types [] with
      | error e' =>
        rw [htypes] at hbind
        cases hbind
      | ok params =>
        rw [htypes] at hbind
        have hparams : paramTypes name bound = .ok params :=
          paramTypes_of_fieldTys? name (Except.ok.inj hbind)
        show exec (prepareTyped fuel options name bound) σ
          = exec (specializeAndOptimize fuel options name params) σ
        unfold prepareTyped
        rw [hparams]
        rfl

/-- Specializing a registered function by its name binds the types, and then specializes the function
for what was bound. -/
theorem exec_specialize (fuel : Nat) {name : String} (types : List Ty) {decl : FnDecl} {s : Session}
    (hdecl : s.sources.find? name = some decl) :
    Typing.exec (specialize fuel name types) s
      = match bindArgs name decl.params decl.nonlocals types [] with
        | .ok bound => Typing.exec (specializeBound fuel decl bound) s
        | .error cause => (.error (.error (.bind cause)), s) := by
  have hstart : Typing.exec (specialize fuel name types) s = Typing.exec (do
      let bound ← Typing.check
        ((bindArgs name decl.params decl.nonlocals types []).mapError .bind)
      specializeBound fuel decl bound) s := by
    show Typing.exec (do
      let func ← Typing.require (.unknownFunction name) (s.sources.find? name)
      let bound ← Typing.check
        ((bindArgs name func.params func.nonlocals types []).mapError .bind)
      specializeBound fuel func bound) s = _
    rw [hdecl]
    rfl
  rw [hstart]
  cases bindArgs name decl.params decl.nonlocals types [] <;> rfl

/-- Binding values that have types agrees with binding the types: the bound values have the bound
types under the same names in the same order, and what fails fails for the same reason. So a run on
the values prepares what compiling for the types prepares, and specializing the function by its name
is specializing it for the same parameters. -/
theorem signature_of_arguments (hargs : Value.tys? args = some types)
    (hkeywords : Value.fieldTys? keywords = some keywordTypes) (func : String) (params : Params)
    (nonlocals : List String) :
    (bindArgs func params nonlocals args keywords).map Value.fieldTys?
        = (bindArgs func params nonlocals types keywordTypes).map some
      ∧ (∀ (fuel : Nat) (options : RunOptions) (name : String) (σ : State Workspace),
        exec (do prepareTyped fuel options name (← bindTo name args)) σ
          = exec (do specializeAndOptimize fuel options name (← bindTo name types)) σ)
      ∧ ∀ (fuel : Nat) (name : String) (decl : FnDecl) (s : Session),
        s.sources.find? name = some decl →
        Typing.exec (specialize fuel name types) s
          = match bindArgs name decl.params decl.nonlocals types [] with
            | .ok bound => Typing.exec (specializeBound fuel decl bound) s
            | .error cause => (.error (.error (.bind cause)), s) :=
  ⟨bindArgs_types func params nonlocals hargs hkeywords, exec_prepareTyped hargs,
    fun fuel _ _ _ hdecl => exec_specialize fuel types hdecl⟩

/-- `fn scaled[k](x, scale, shift = false, *rest)` on a captured truth value, an integer and a pair
given by keyword. -/
theorem signature_of_arguments_scaled :
    let params : Params := ⟨["x", "scale", "shift"], [("shift", .bool false)], some "rest"⟩
    let args := [.scalar (.bool true), Value.int 7]
    let keywords := [("scale", Value.tuple [.int 2, .none])]
    Value.tys? args = some [.bool, .int64]
      ∧ Value.fieldTys? keywords = some [("scale", .tuple [.int64, .none])]
      ∧ (bindArgs "scaled" params ["k"] args keywords).map Value.fieldTys?
        = .ok (some [("k", .bool), ("x", .int64), ("scale", .tuple [.int64, .none]),
          ("shift", .bool), ("rest", .tuple [])]) := by
  refine ⟨rfl, rfl, ?_⟩
  exact (signature_of_arguments rfl rfl "scaled" _ ["k"]).1.trans rfl

end Pipeline
end ArrayLang
