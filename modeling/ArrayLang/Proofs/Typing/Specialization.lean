import ArrayLang.Proofs.Typing.Inference
import ArrayLang.Proofs.Typing.LoweredStatement
import ArrayLang.Typing.Specialization

/-!
# What specialization gives

A specialization that is built is well typed, and building it keeps every invariant of sessions that
registering functions and recording well-typed specializations keep. The induction is on the fuel:
the specializations of called functions are built with less.
-/

namespace ArrayLang

open Typing

variable {q : String → Prop} {I : Session → Prop}

/-- The signature and the body of a lowered function pass the check. -/
theorem Lowered.WellTyped.check {lowered : Lowered} {result : Ty} {params : List (String × Ty)}
    (h : lowered.WellTyped result params) (name : String) :
    TypedFn.check ⟨name, lowered.argNames, params.map (·.2), lowered.body, result,
      lowered.typeEnv⟩ = .ok () := by
  have hlen : lowered.argNames.length = (params.map (·.2)).length := by
    rw [List.length_map, h.args.length_eq]
  unfold TypedFn.check
  rw [Outcome.then_eq_ok, Outcome.then_eq_ok, Check.require_eq_ok, Outcome.forM_eq_ok]
  refine ⟨hlen, fun p hp => Check.require_eq_ok.2 ?_, h.body⟩
  obtain ⟨arg, ty⟩ := p
  have hargs : List.Forall₂ (fun ty arg => lowered.typeEnv.find? arg = some ty)
      (params.map (·.2)) lowered.argNames :=
    List.forall₂_map_left_iff.2 h.args
  exact List.forall₂_zip hargs.flip hp

theorem buildTypedFn_meets (hI : SourceInvariant q I) {specialize : Specializer}
    (hspec : specialize.Keeps q I) {func : FnDecl} {params : List (String × Ty)}
    (hfunc : func.Names q) (hparams : ∀ p ∈ params, q p.1) :
    Meets I (buildTypedFn specialize func params) fun typed =>
      NamesApart q → typed.check = .ok () := by
  unfold buildTypedFn
  refine (inferFn_meets hI hspec hfunc hparams).bind fun inference hinference => ?_
  refine (lowerFn_meets hI hspec hfunc hinference.1 hinference.2).bind fun lowered hlowered => ?_
  exact .pure fun hq => (hlowered hq).check _

/-- A specialization that was recorded before is a typed function of the session. -/
theorem Session.find?_of_specialization? {s : Session} {key : Signature} {func : TypedFn}
    (h : s.specialization? key = some func) : ∃ name, s.typed.find? name = some func := by
  obtain ⟨name, -, hfind⟩ := Option.bind_eq_some_iff.1 h
  exact ⟨name, hfind⟩

/-- What a specialization does to the session: a recorded one is found, one in progress is refused, and
any other is built while it is in progress and recorded if it succeeds. -/
theorem exec_specializeOnce (specialize : Specializer) (func : FnDecl)
    (params : List (String × Ty)) (s : Session) :
    exec (specializeOnce specialize func params) s =
      let key : Signature := (func.name, params.map (·.2))
      match s.specialization? key with
      | some typed => (.ok typed, s)
      | none =>
        if s.inProgress.contains key then (.error (.error (.recursive func.name)), s)
        else
          match exec (buildTypedFn specialize func params) (s.beginSpecialization key) with
          | (.ok typed, t) => (.ok typed, (t.endSpecialization key).recordSpecialization key typed)
          | (.error stop, t) => (.error stop, t.endSpecialization key) := by
  unfold specializeOnce
  rw [exec_get_bind]
  dsimp only
  cases s.specialization? (func.name, params.map (·.2)) with
  | some typed => rfl
  | none =>
    dsimp only
    rw [exec_get_bind]
    by_cases hactive : s.inProgress.contains (func.name, params.map (·.2)) = true
    · rw [if_pos hactive, if_pos hactive]
      rfl
    · rw [if_neg hactive, if_neg hactive]
      rw [exec_modify_bind, exec_attempt_bind, exec_modify_bind]
      cases exec (buildTypedFn specialize func params)
        (s.beginSpecialization (func.name, params.map (·.2))) with
      | mk built t => cases built <;> rfl

theorem specializeOnce_keeps (hI : SessionInvariant q I) {specialize : Specializer}
    (hspec : specialize.Keeps q I) : Specializer.Keeps q I (specializeOnce specialize) := by
  intro func params hfunc hparams
  unfold specializeOnce
  refine Meets.get.bind fun s hs => ?_
  dsimp only
  split
  · rename_i typed hfound
    obtain ⟨name, hfind⟩ := Session.find?_of_specialization? hfound
    exact .pure (hI.typed hs hfind)
  · refine Meets.get.bind fun s hs => .ite (fun _ => .fail _) fun _ => ?_
    refine (Meets.modify fun s hs => hI.beginSpecialization hs).bind fun _ _ => ?_
    have hbuild := buildTypedFn_meets hI.toSourceInvariant hspec hfunc hparams
    refine (Meets.attempt hbuild).bind fun built hbuilt => ?_
    refine (Meets.modify fun s hs => hI.endSpecialization hs).bind fun _ _ => ?_
    cases built with
    | error stop => exact .throw _
    | ok typed =>
      have htyped := hbuilt typed rfl
      refine (Meets.modify fun s hs => hI.recordSpecialization hs htyped).bind fun _ _ => ?_
      exact .pure htyped

theorem specializeBound_keeps (hI : SessionInvariant q I) (fuel : Nat) :
    Specializer.Keeps q I (specializeBound fuel) := by
  induction fuel with
  | zero => exact fun _ _ _ _ => .throw _
  | succ fuel ih => exact specializeOnce_keeps hI ih

theorem specialize_meets (hI : SessionInvariant q I) (fuel : Nat) (name : String)
    (types : List Ty) :
    Meets I (specialize fuel name types) fun typed => NamesApart q → typed.check = .ok () :=
  Annotate.specializeNamed_meets hI.toSourceInvariant (specializeBound_keeps hI fuel) name types

end ArrayLang
