import ArrayLang.Proofs.Typing.Annotation
import ArrayLang.Proofs.Typing.Emission

/-!
# Specialized callees

The callee of a call through a value and the functions of an adverb become closures over specialized
functions. A callee that is written out as a closure keeps its captured values. Of any other callee
each captured value is taken from a copy of its own, so there are as many copies as captured values,
and lowering converts each of them by itself.

## Main results

- `annotate_callees`: annotation resolves every callee to a closure of its captured values.
- `Lower.lowerExpr_callees`: the form of the callees of a lowered node.
-/

namespace ArrayLang

open Typing

/-- The expressions whose values a node calls. -/
def Node.callees : Node → List Expr
  | .invoke callee _ => [callee]
  | .map func _ _ | .allPairs func _ _ => [func]
  | .reduce func combine _ _ _ => [func, combine]
  | .scan func combine emit _ _ _ => [func, combine, emit]
  | _ => []

/-! ## Sessions without an invariant -/

theorem not_namesApart_any : ¬NamesApart fun _ => True :=
  fun h => absurd (h "." trivial) (by decide)

/-- Nothing is asked of names or of sessions. -/
theorem sourceInvariant_any : SourceInvariant (fun _ => True) anySession where
  sources _ _ _ _ := trivial
  typed _ _ hq := (not_namesApart_any hq).elim
  register _ _ := trivial

theorem Specializer.keeps_any (specialize : Specializer) :
    specialize.Keeps (fun _ => True) anySession :=
  fun _ _ _ _ _ _ => ⟨trivial, fun _ _ hq => (not_namesApart_any hq).elim⟩

/-! ## Resolving callees -/

namespace Annotate

variable {specialize : Specializer} {env : TypeEnv} {callee closure : Expr} {args : List Expr}

/-- The closure holds the captured values of the callee. -/
inductive Resolves (callee : Expr) : Expr → Prop
  | closure {name func : String} {types : List Ty} {ty : Ty}
    (h : callee.ty? = some (.closure name types)) :
    Resolves callee (.typed (.closure func (capturedValues callee types)) ty)

theorem specializeCallee_resolves (hcallee : callee.Annotated env)
    (hargs : ∀ a ∈ args, ∃ ty, a.ty? = some ty) :
    Meets anySession (specializeCallee specialize callee args) fun r => Resolves callee r.1 := by
  unfold specializeCallee
  refine (Meets.typeOf callee).bind fun ty hty => ?_
  split
  · rename_i name types
    obtain ⟨hcaptured, hlen⟩ := capturedValues_annotated hcallee hty
    refine (Meets.any _).bind fun s _ => .ite (fun _ => ?_) fun _ => ?_
    · -- The function is typed already, and the captured values are passed on as they are.
      refine (Meets.any _).bind fun found _ => ?_
      exact (Meets.any _).bind fun typed _ => .pure (.closure hty)
    · refine (Meets.any _).bind fun s _ => (Meets.any _).bind fun func _ => ?_
      refine .ite (fun _ => .fail _) fun hfew => ?_
      have hall : ∀ a ∈ capturedValues callee types ++ args, ∃ ty, a.ty? = some ty := by
        rw [List.forall_mem_append]
        exact ⟨fun e he => (hcaptured e he).typed, hargs⟩
      refine (bindExprs_meets func hall).bind fun bound hbound => ?_
      refine (Meets.any _).bind fun params _ => (Meets.any _).bind fun typed _ => ?_
      show Meets anySession (do
        let closure ← closureOf typed.name ((bound.map (·.2)).take types.length)
        return (closure, (bound.map (·.2)).drop types.length, typed)) _
      -- The captured values stand first among the bound arguments.
      rw [hbound.take_captured hlen hfew]
      exact ((Meets.any _).bind (Q := Resolves callee) fun types _ => .pure (.closure hty)).bind
        fun closure hclosure => .pure hclosure
  · exact .fail _

theorem specializeElementwise_resolves (hcallee : callee.Annotated env) (types : List Ty) :
    Meets anySession (specializeElementwise specialize callee types)
      fun r => Resolves callee r.1 := by
  unfold specializeElementwise
  refine (specializeCallee_resolves hcallee fun a ha => ?_).bind fun r hr => ?_
  · obtain ⟨ty, -, rfl⟩ := List.mem_map.1 ha
    exact ⟨ty, rfl⟩
  · exact .ite (fun _ => .pure hr) fun _ => .fail _

/-- Every pass resolves the same function, so the last one does. -/
theorem settleAccumulator_resolves (hcallee : callee.Annotated env) (element : Ty) (passes : Nat)
    (acc : Ty) :
    Meets anySession (settleAccumulator specialize callee element passes acc)
      fun r => Resolves callee r.1 := by
  induction passes generalizing acc with
  | zero => exact .fail _
  | succ passes ih =>
    unfold settleAccumulator
    refine (specializeElementwise_resolves hcallee _).bind fun r hr => ?_
    refine (Meets.any _).bind fun joined _ => ?_
    exact .ite (fun _ => .pure hr) fun _ => ih joined

/-- The expression is an annotation of the given one. -/
def AnnotationOf (specialize : Specializer) (env : TypeEnv) (e annotated : Expr) : Prop :=
  annotated.Annotated env ∧ ∃ s t, exec (annotate specialize env e) s = (.ok annotated, t)

theorem annotate_annotationOf (e : Expr) :
    Meets anySession (annotate specialize env e) (AnnotationOf specialize env e) :=
  (annotate_meets sourceInvariant_any specialize.keeps_any e fun _ _ => trivial).and (.returned _)

/-- The closure is what a callee of source code is resolved to. -/
def ResolvesFrom (specialize : Specializer) (env : TypeEnv) (source closure : Expr) : Prop :=
  ∃ callee, AnnotationOf specialize env source callee ∧ Resolves callee closure

end Annotate

open Annotate

/-- Annotation resolves every callee to a closure of its captured values. -/
theorem annotate_callees (specialize : Specializer) (env : TypeEnv) {e : Expr}
    (h : e.node.callees ≠ []) :
    Meets anySession (annotate specialize env e) fun e' =>
      List.Forall₂ (ResolvesFrom specialize env) e.node.callees e'.node.callees := by
  obtain ⟨node, ty?⟩ := e
  cases node with
  | invoke callee args =>
    rw [annotate]
    refine (annotate_annotationOf callee).bind fun callee hcallee => ?_
    refine (annotateAll_meets sourceInvariant_any specialize.keeps_any args
      fun _ _ => trivial).bind fun args hargs => ?_
    refine (specializeCallee_resolves hcallee.1 fun a ha => (hargs a ha).typed).bind
      fun r hr => .pure ?_
    exact .cons ⟨callee, hcallee, hr⟩ .nil
  | map func args axis =>
    rw [annotate]
    refine (Meets.any _).bind fun i _ => (Meets.any _).bind fun axis _ => ?_
    refine (annotate_annotationOf func).bind fun func hfunc => ?_
    refine (Meets.any _).bind fun args _ => (Meets.any _).bind fun types _ => ?_
    refine (Meets.any _).bind fun slices _ => ?_
    refine (specializeElementwise_resolves hfunc.1 slices).bind fun r hr => ?_
    refine stackedType_meets _ _ fun ty => .pure ?_
    exact .cons ⟨func, hfunc, hr⟩ .nil
  | allPairs func args axis =>
    rw [annotate]
    refine (Meets.any _).bind fun i _ => (Meets.any _).bind fun axis _ => ?_
    refine (annotate_annotationOf func).bind fun func hfunc => ?_
    refine (Meets.any _).bind fun args _ => (Meets.any _).bind fun types _ => ?_
    refine .ite (fun _ => (Meets.any _).bind fun _ _ => ?_) fun _ => ?_
    all_goals
      refine (Meets.any _).bind fun slices _ => ?_
      refine (specializeElementwise_resolves hfunc.1 slices).bind fun r hr => ?_
      refine (Meets.any _).bind fun ty _ => .pure ?_
      exact .cons ⟨func, hfunc, hr⟩ .nil
  | reduce func combine start args axis =>
    rw [annotate]
    refine (Meets.any _).bind fun i _ => (Meets.any _).bind fun axis _ => ?_
    refine (annotate_annotationOf func).bind fun func hfunc => ?_
    refine (annotate_annotationOf combine).bind fun combine hcombine => ?_
    refine (Meets.any _).bind fun start? _ => (Meets.any _).bind fun args _ => ?_
    refine (Meets.any _).bind fun types _ => (Meets.any _).bind fun slices _ => ?_
    refine (specializeElementwise_resolves hfunc.1 slices).bind fun r hr => ?_
    refine startType_meets start? _ fun first _ => ?_
    refine (settleAccumulator_resolves hcombine.1 _ _ first).bind fun r' hr' => .pure ?_
    exact .cons ⟨func, hfunc, hr⟩ (.cons ⟨combine, hcombine, hr'⟩ .nil)
  | scan func combine emit start args axis =>
    rw [annotate]
    refine (Meets.any _).bind fun i _ => (Meets.any _).bind fun axis _ => ?_
    refine (annotate_annotationOf func).bind fun func hfunc => ?_
    refine (annotate_annotationOf combine).bind fun combine hcombine => ?_
    refine (annotate_annotationOf emit).bind fun emit hemit => ?_
    refine (Meets.any _).bind fun start? _ => (Meets.any _).bind fun args _ => ?_
    refine (Meets.any _).bind fun types _ => (Meets.any _).bind fun slices _ => ?_
    refine (specializeElementwise_resolves hfunc.1 slices).bind fun r hr => ?_
    refine startType_meets start? _ fun first _ => ?_
    refine (settleAccumulator_resolves hcombine.1 _ _ first).bind fun r' hr' => ?_
    refine (specializeElementwise_resolves hemit.1 _).bind fun r'' hr'' => ?_
    refine stackedType_meets _ _ fun ty => .pure ?_
    exact .cons ⟨func, hfunc, hr⟩ (.cons ⟨combine, hcombine, hr'⟩ (.cons ⟨emit, hemit, hr''⟩ .nil))
  | _ => exact absurd rfl h

/-! ## Lowering callees -/

/-- The values are the captured values `k`, `k + 1` and so on, each taken from its own copy. -/
inductive Projections : Nat → List Expr → List Expr → Prop where
  | nil {k : Nat} : Projections k [] []
  | cons {k : Nat} {copy : Expr} {copies values : List Expr} {ty? : Option Ty}
    (h : Projections (k + 1) copies values) :
    Projections k (copy :: copies) (⟨.captured copy k, ty?⟩ :: values)

namespace Lower

variable {specialize : Specializer}

/-- The expression is what lowering makes of an annotated one. -/
def RebuildOf (e e' : Expr) : Prop :=
  ∃ st s st' t, exec ((e.rebuildM convertNode).run st) s = (.ok (e', st'), t)

theorem rebuildM_returns (e : Expr) : Returns (e.rebuildM convertNode) (RebuildOf e) :=
  .returned _

theorem rebuildListM_returns (es : List Expr) :
    Returns (Expr.rebuildListM convertNode es) (List.Forall₂ RebuildOf es) := by
  induction es with
  | nil =>
    rw [Expr.rebuildListM]
    exact .pure .nil
  | cons e es ih =>
    rw [Expr.rebuildListM]
    refine (rebuildM_returns e).bind fun e' he => ih.bind fun es' hes => .pure ?_
    exact .cons he hes

/-- What an expression is rebuilt to is returned by rebuilding it. -/
theorem RebuildOf.of_returns {e e' : Expr} {Q : Expr → Prop} (h : RebuildOf e e')
    (hQ : Returns (e.rebuildM convertNode) Q) : Q e' := by
  obtain ⟨st, s, st', t, hexec⟩ := h
  exact (hQ st trivial s trivial).2 (e', st') (by rw [hexec])

theorem RebuildOf.closure {func : String} {captured : List Expr} {ty? : Option Ty} {e : Expr}
    (h : RebuildOf ⟨.closure func captured, ty?⟩ e) :
    ∃ values, e = ⟨.closure func values, ty?⟩ ∧ List.Forall₂ RebuildOf captured values := by
  refine h.of_returns (Q := fun e => ∃ values, e = ⟨.closure func values, ty?⟩
    ∧ List.Forall₂ RebuildOf captured values) ?_
  rw [Expr.rebuildM]
  refine (rebuildListM_returns captured).bind fun values hvalues => ?_
  exact (Returns.any _).bind fun ty _ => .pure ⟨values, rfl, hvalues⟩

theorem RebuildOf.captured {base : Expr} {i : Nat} {ty? : Option Ty} {e : Expr}
    (h : RebuildOf ⟨.captured base i, ty?⟩ e) :
    ∃ copy, e = ⟨.captured copy i, ty?⟩ ∧ RebuildOf base copy := by
  refine h.of_returns (Q := fun e => ∃ copy, e = ⟨.captured copy i, ty?⟩ ∧ RebuildOf base copy) ?_
  rw [Expr.rebuildM]
  refine (rebuildM_returns base).bind fun copy hcopy => ?_
  exact (Returns.any _).bind fun ty _ => .pure ⟨copy, rfl, hcopy⟩

theorem RebuildOf.var {name : String} {ty? : Option Ty} {e : Expr}
    (h : RebuildOf ⟨.var name, ty?⟩ e) : e = ⟨.var name, ty?⟩ := by
  refine h.of_returns (Q := (· = ⟨.var name, ty?⟩)) ?_
  rw [Expr.rebuildM]
  exact (Returns.any _).bind fun ty _ => .pure rfl

/-- A node keeps its callees, each rebuilt. -/
theorem rebuildM_callees {e : Expr} (h : e.node.callees ≠ []) :
    Returns (e.rebuildM convertNode) fun e' =>
      List.Forall₂ RebuildOf e.node.callees e'.node.callees := by
  obtain ⟨node, ty?⟩ := e
  cases node with
  | invoke callee args =>
    rw [Expr.rebuildM]
    refine (rebuildM_returns callee).bind fun callee hcallee => ?_
    refine (Returns.any _).bind fun args _ => (Returns.any _).bind fun ty _ => .pure ?_
    exact .cons hcallee .nil
  | map func args axis | allPairs func args axis =>
    rw [Expr.rebuildM]
    refine (rebuildM_returns func).bind fun func hfunc => (Returns.any _).bind fun args _ => ?_
    refine (Returns.any _).bind fun axis _ => (Returns.any _).bind fun ty _ => .pure ?_
    exact .cons hfunc .nil
  | reduce func combine start args axis =>
    rw [Expr.rebuildM]
    refine (rebuildM_returns func).bind fun func hfunc => ?_
    refine (rebuildM_returns combine).bind fun combine hcombine => ?_
    refine (Returns.any _).bind fun start _ => (Returns.any _).bind fun args _ => ?_
    refine (Returns.any _).bind fun axis _ => (Returns.any _).bind fun ty _ => ?_
    refine (Returns.any _).bind fun start _ => .pure ?_
    exact .cons hfunc (.cons hcombine .nil)
  | scan func combine emit start args axis =>
    rw [Expr.rebuildM]
    refine (rebuildM_returns func).bind fun func hfunc => ?_
    refine (rebuildM_returns combine).bind fun combine hcombine => ?_
    refine (rebuildM_returns emit).bind fun emit hemit => ?_
    refine (Returns.any _).bind fun start _ => (Returns.any _).bind fun args _ => ?_
    refine (Returns.any _).bind fun axis _ => (Returns.any _).bind fun ty _ => ?_
    refine (Returns.any _).bind fun start _ => .pure ?_
    exact .cons hfunc (.cons hcombine (.cons hemit .nil))
  | _ => exact absurd rfl h

/-- The closure that lowering makes of a callee. A callee that is written out as a closure keeps its
captured values; of any other callee there is one copy for each value that its type captures. -/
inductive LoweredCallee (callee : Expr) : Expr → Prop where
  | literal {name func : String} {captured values : List Expr} {ty? : Option Ty}
    (hnode : callee.node = .closure name captured) (h : List.Forall₂ RebuildOf captured values) :
    LoweredCallee callee ⟨.closure func values, ty?⟩
  | copies {name func : String} {types : List Ty} {copies values : List Expr} {ty? : Option Ty}
    (hty : callee.ty? = some (.closure name types)) (hlen : copies.length = types.length)
    (hcopies : ∀ copy ∈ copies, RebuildOf callee copy) (h : Projections 0 copies values) :
    LoweredCallee callee ⟨.closure func values, ty?⟩

/-- Rebuilding projections of a callee gives projections of copies of it. -/
theorem projections_of_rebuilds (callee : Expr) {types : List Ty} {k : Nat} {values : List Expr}
    (h : List.Forall₂ RebuildOf
      (types.mapIdx fun i ty => .typed (.captured callee (k + i)) ty) values) :
    ∃ copies : List Expr, copies.length = types.length ∧ (∀ copy ∈ copies, RebuildOf callee copy)
      ∧ Projections k copies values := by
  induction types generalizing k values with
  | nil =>
    cases h
    exact ⟨[], rfl, fun _ h => (List.not_mem_nil h).elim, .nil⟩
  | cons ty types ih =>
    rw [List.mapIdx_cons] at h
    cases h with
    | cons hhead hrest =>
      obtain ⟨copy, rfl, hcopy⟩ := RebuildOf.captured hhead
      -- The captured values that are left are numbered from `k + 1` on.
      have hshift : (fun i ty => Expr.typed (.captured callee (k + (i + 1))) ty)
          = fun i ty => .typed (.captured callee (k + 1 + i)) ty := by
        funext i ty
        rw [Nat.add_assoc, Nat.add_comm 1 i]
      rw [hshift] at hrest
      obtain ⟨copies, hlen, hcopies, hproj⟩ := ih hrest
      refine ⟨copy :: copies, congrArg (· + 1) hlen, ?_, .cons hproj⟩
      exact List.forall_mem_cons.2 ⟨hcopy, hcopies⟩

theorem LoweredCallee.of_resolves {callee closure closure' : Expr} (h : Resolves callee closure)
    (h' : RebuildOf closure closure') : LoweredCallee callee closure' := by
  obtain ⟨hty⟩ := h
  obtain ⟨values, rfl, hvalues⟩ := h'.closure
  unfold capturedValues at hvalues
  split at hvalues
  · exact .literal ‹_› hvalues
  · obtain ⟨copies, hlen, hcopies, hproj⟩ := projections_of_rebuilds callee (k := 0)
      (by simpa only [Nat.zero_add] using hvalues)
    exact .copies hty hlen hcopies hproj

/-- The closure is what lowering makes of a callee of source code. -/
def LoweredFrom (specialize : Specializer) (source closure : Expr) : Prop :=
  ∃ env callee, AnnotationOf specialize env source callee ∧ LoweredCallee callee closure

theorem loweredCallees {callees closures closures' : List Expr} {env : TypeEnv}
    (h : List.Forall₂ (ResolvesFrom specialize env) callees closures)
    (h' : List.Forall₂ RebuildOf closures closures') :
    List.Forall₂ (LoweredFrom specialize) callees closures' := by
  induction h generalizing closures' with
  | nil =>
    cases h'
    exact .nil
  | cons hhead _ ih =>
    cases h' with
    | cons hhead' hrest' =>
      obtain ⟨callee, hcallee, hresolves⟩ := hhead
      exact .cons ⟨env, callee, hcallee, .of_resolves hresolves hhead'⟩ (ih hrest')

/-- Lowering a call through a value or an adverb makes a closure of each of its callees. -/
theorem lowerExpr_callees (specialize : Specializer) {e : Expr} (h : e.node.callees ≠ []) :
    Returns (lowerExpr specialize e) fun e' =>
      List.Forall₂ (LoweredFrom specialize) e.node.callees e'.node.callees := by
  unfold lowerExpr
  refine (Returns.any _).bind fun st _ => ?_
  refine (Returns.lift (annotate_callees specialize st.env h)).bind fun typed htyped => ?_
  have hcallees : typed.node.callees ≠ [] := by
    intro hnil
    rw [hnil] at htyped
    exact h (List.forall₂_nil_right_iff.1 htyped)
  refine (rebuildM_callees hcallees).mono (fun _ h => h) fun e' _ hrebuilt => ?_
  exact loweredCallees htyped hrebuilt

end Lower
end ArrayLang
