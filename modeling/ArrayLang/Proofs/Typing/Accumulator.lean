import ArrayLang.Proofs.Ty.Join
import ArrayLang.Proofs.Typing.Callee

/-!
# The type of an accumulator

The type of the accumulator of a reduction or a scan is reached by widening: it starts as the type of the
initial value, or of the elements if there is none, and takes up what the combining function returns until
it stays the same. So both are widened to it. Being widened to a type is not yet being of the type: the
first element, and what a call returns, are accumulators as they are.

## Main results

- `Annotate.settleAccumulator_covers`: what the type of an accumulator covers.
- `annotate_reduce_settled`, `annotate_scan_settled`: the accumulators of typed reductions and scans.
-/

namespace ArrayLang

open Typing

namespace Annotate

variable {specialize : Specializer} {combine combine' func func' : Expr}

/-- An adverb's function is resolved to the closure, which calls the specialized function. -/
def SpecializesTo (specialize : Specializer) (func : Expr) (types : List Ty) (closure : Expr)
    (typed : TypedFn) : Prop :=
  ∃ s t, exec (specializeElementwise specialize func types) s = (.ok (closure, typed), t)

/-- The combining function was specialized for accumulators of type `acc`, and what it returns is
widened to that type. -/
def CombinesWithin (specialize : Specializer) (combine : Expr) (element : Ty) (combine' : Expr)
    (acc : Ty) : Prop :=
  ∃ typed, SpecializesTo specialize combine [acc, element] combine' typed
    ∧ typed.returnType.Widens acc

/-- The type of an accumulator covers the type that it starts as and all that combining returns. -/
theorem settleAccumulator_covers (combine : Expr) (element : Ty) (passes : Nat) (first : Ty) :
    Meets anySession (settleAccumulator specialize combine element passes first) fun r =>
      first.Widens r.2 ∧ CombinesWithin specialize combine element r.1 r.2 := by
  induction passes generalizing first with
  | zero => exact .fail _
  | succ passes ih =>
    unfold settleAccumulator
    refine (Meets.returned _).bind fun r hr => ?_
    obtain ⟨s, t, hr⟩ := hr
    obtain ⟨combine', typed⟩ := r
    refine (Meets.require fun joined hjoined => hjoined).bind fun joined hjoined => ?_
    obtain ⟨hfirst, hreturned⟩ := Ty.join?_lift hjoined
    refine .ite (fun hsettled => .pure ?_) fun _ => ?_
    · exact ⟨Ty.Widens.refl first, typed, ⟨s, t, hr⟩, hsettled ▸ hreturned⟩
    · -- The next round starts from the join, to which the type of this one is widened.
      exact (ih joined).mono fun r hr => ⟨Ty.Widens.trans hfirst hr.1, hr.2⟩

/-- The functions of a fold are resolved, and the type of its accumulator covers the first accumulator
and what combining returns. -/
inductive Settled (specialize : Specializer) (func combine : Expr) (slices : List Ty)
    (start? : Option Expr) (func' combine' : Expr) (acc : Ty) : Prop
  | mk {typed : TypedFn} {seed : Ty} (hfunc : SpecializesTo specialize func slices func' typed)
    (hseed : SeedType typed.returnType start? seed) (hwidens : seed.Widens acc)
    (hcombine : CombinesWithin specialize combine typed.returnType combine' acc) :
    Settled specialize func combine slices start? func' combine' acc

end Annotate

open Annotate

variable (specialize : Specializer) (env : TypeEnv)

/-- A typed reduction has the type of its accumulator, which covers the first one and what combining
returns. -/
theorem annotate_reduce_settled (func combine : Expr) (start : Option Expr) (args : List Expr)
    (axis : Expr) (ty? : Option Ty) :
    Meets anySession (annotate specialize env ⟨.reduce func combine start args axis, ty?⟩)
      fun e => ∃ funcSource combineSource slices func' combine' start? args' axis' acc,
        AnnotationOf specialize env func funcSource
        ∧ AnnotationOf specialize env combine combineSource
        ∧ Settled specialize funcSource combineSource slices start? func' combine' acc
        ∧ e = .typed (.reduce func' combine' start? args' axis') acc := by
  rw [annotate]
  refine (Meets.any _).bind fun i _ => (Meets.any _).bind fun axis' _ => ?_
  refine (annotate_annotationOf func).bind fun funcSource hfunc => ?_
  refine (annotate_annotationOf combine).bind fun combineSource hcombine => ?_
  refine (Meets.any _).bind fun start? _ => (Meets.any _).bind fun args' _ => ?_
  refine (Meets.any _).bind fun types _ => (Meets.any _).bind fun slices _ => ?_
  refine (Meets.returned _).bind fun r ⟨s, t, hr⟩ => ?_
  refine startType_meets start? _ fun seed hseed => ?_
  refine (settleAccumulator_covers combineSource _ _ seed).bind fun r' hr' => .pure ?_
  exact ⟨funcSource, combineSource, slices, r.1, r'.1, start?, args', axis', r'.2, hfunc, hcombine,
    .mk ⟨s, t, hr⟩ hseed hr'.1 hr'.2, rfl⟩

/-- The same of a scan, whose emitting function is specialized for that type. -/
theorem annotate_scan_settled (func combine emit : Expr) (start : Option Expr) (args : List Expr)
    (axis : Expr) (ty? : Option Ty) :
    Meets anySession (annotate specialize env ⟨.scan func combine emit start args axis, ty?⟩)
      fun e => ∃ funcSource combineSource emitSource slices func' combine' emit' start? args' axis',
        AnnotationOf specialize env func funcSource
        ∧ AnnotationOf specialize env combine combineSource
        ∧ AnnotationOf specialize env emit emitSource
        ∧ (∃ acc typed, Settled specialize funcSource combineSource slices start? func' combine' acc
          ∧ SpecializesTo specialize emitSource [acc] emit' typed)
        ∧ e.node = .scan func' combine' emit' start? args' axis' := by
  rw [annotate]
  refine (Meets.any _).bind fun i _ => (Meets.any _).bind fun axis' _ => ?_
  refine (annotate_annotationOf func).bind fun funcSource hfunc => ?_
  refine (annotate_annotationOf combine).bind fun combineSource hcombine => ?_
  refine (annotate_annotationOf emit).bind fun emitSource hemit => ?_
  refine (Meets.any _).bind fun start? _ => (Meets.any _).bind fun args' _ => ?_
  refine (Meets.any _).bind fun types _ => (Meets.any _).bind fun slices _ => ?_
  refine (Meets.returned _).bind fun r ⟨s, t, hr⟩ => ?_
  refine startType_meets start? _ fun seed hseed => ?_
  refine (settleAccumulator_covers combineSource _ _ seed).bind fun r' hr' => ?_
  refine (Meets.returned _).bind fun r'' ⟨s', t', hr''⟩ => ?_
  refine stackedType_meets _ _ fun ty => .pure ?_
  exact ⟨funcSource, combineSource, emitSource, slices, r.1, r'.1, r''.1, start?, args', axis', hfunc,
    hcombine, hemit, ⟨r'.2, r''.2, .mk ⟨s, t, hr⟩ hseed hr'.1 hr'.2, ⟨s', t', hr''⟩⟩, rfl⟩

end ArrayLang
