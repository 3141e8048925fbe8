import ArrayLang.Syntax.Traversal

/-!
# Rebuilding expressions

Rebuilding an expression runs the conversion of each node in order and does nothing else. So a property
of computations that the conversion has, and that running one computation after the other keeps, is a
property of rebuilding.
-/

namespace ArrayLang

/-- A property of computations that a known result has and that one computation after the other keeps. -/
structure Sequential (m : Type → Type) [Monad m] (K : {α : Type} → m α → Prop) : Prop where
  pure {α : Type} (a : α) : K (Pure.pure a : m α)
  bind {α β : Type} {x : m α} {f : α → m β} (hx : K x) (hf : ∀ a, K (f a)) : K (x >>= f)

namespace Expr

variable {m : Type → Type} [Monad m] {K : {α : Type} → m α → Prop} {f : Expr → m Expr}

mutual
/-- Rebuilding an expression has every such property of the conversion. -/
theorem rebuildM_closed (hK : Sequential m K) (hf : ∀ e, K (f e)) : ∀ e : Expr, K (e.rebuildM f)
  | ⟨.lit value, t⟩ => hf _
  | ⟨.var name, t⟩ => hf _
  | ⟨.opValue op, t⟩ => hf _
  | ⟨.lambda decl, t⟩ => hf _
  | ⟨.tuple items, t⟩ => by
    rw [rebuildM]
    exact hK.bind (rebuildListM_closed hK hf items) fun items => hf _
  | ⟨.array items, t⟩ => by
    rw [rebuildM]
    exact hK.bind (rebuildListM_closed hK hf items) fun items => hf _
  | ⟨.op op args, t⟩ => by
    rw [rebuildM]
    exact hK.bind (rebuildListM_closed hK hf args) fun args => hf _
  | ⟨.call func args, t⟩ => by
    rw [rebuildM]
    exact hK.bind (rebuildListM_closed hK hf args) fun args => hf _
  | ⟨.closure func captured, t⟩ => by
    rw [rebuildM]
    exact hK.bind (rebuildListM_closed hK hf captured) fun captured => hf _
  | ⟨.proj base i, t⟩ => by
    rw [rebuildM]
    exact hK.bind (rebuildM_closed hK hf base) fun base => hf _
  | ⟨.attr base name, t⟩ => by
    rw [rebuildM]
    exact hK.bind (rebuildM_closed hK hf base) fun base => hf _
  | ⟨.captured base i, t⟩ => by
    rw [rebuildM]
    exact hK.bind (rebuildM_closed hK hf base) fun base => hf _
  | ⟨.cast value elt, t⟩ => by
    rw [rebuildM]
    exact hK.bind (rebuildM_closed hK hf value) fun value => hf _
  | ⟨.alloc elt shape, t⟩ => by
    rw [rebuildM]
    exact hK.bind (rebuildM_closed hK hf shape) fun shape => hf _
  | ⟨.index base index, t⟩ => by
    rw [rebuildM]
    refine hK.bind (rebuildM_closed hK hf base) fun base => ?_
    exact hK.bind (rebuildM_closed hK hf index) fun index => hf _
  | ⟨.slice start stop step, t⟩ => by
    rw [rebuildM]
    refine hK.bind (rebuildM_closed hK hf start) fun start => ?_
    refine hK.bind (rebuildM_closed hK hf stop) fun stop => ?_
    exact hK.bind (rebuildOptionM_closed hK hf step) fun step => hf _
  | ⟨.invoke callee args, t⟩ => by
    rw [rebuildM]
    refine hK.bind (rebuildM_closed hK hf callee) fun callee => ?_
    exact hK.bind (rebuildListM_closed hK hf args) fun args => hf _
  | ⟨.struct name fields, t⟩ => by
    rw [rebuildM]
    exact hK.bind (rebuildFieldsM_closed hK hf fields) fun fields => hf _
  | ⟨.map func args axis, t⟩ | ⟨.allPairs func args axis, t⟩ => by
    rw [rebuildM]
    refine hK.bind (rebuildM_closed hK hf func) fun func => ?_
    refine hK.bind (rebuildListM_closed hK hf args) fun args => ?_
    exact hK.bind (rebuildM_closed hK hf axis) fun axis => hf _
  | ⟨.reduce func combine start args axis, t⟩ => by
    rw [rebuildM]
    refine hK.bind (rebuildM_closed hK hf func) fun func => ?_
    refine hK.bind (rebuildM_closed hK hf combine) fun combine => ?_
    refine hK.bind (rebuildOptionM_closed hK hf start) fun start => ?_
    refine hK.bind (rebuildListM_closed hK hf args) fun args => ?_
    exact hK.bind (rebuildM_closed hK hf axis) fun axis => hf _
  | ⟨.scan func combine emit start args axis, t⟩ => by
    rw [rebuildM]
    refine hK.bind (rebuildM_closed hK hf func) fun func => ?_
    refine hK.bind (rebuildM_closed hK hf combine) fun combine => ?_
    refine hK.bind (rebuildM_closed hK hf emit) fun emit => ?_
    refine hK.bind (rebuildOptionM_closed hK hf start) fun start => ?_
    refine hK.bind (rebuildListM_closed hK hf args) fun args => ?_
    exact hK.bind (rebuildM_closed hK hf axis) fun axis => hf _
termination_by structural e => e

theorem rebuildListM_closed (hK : Sequential m K) (hf : ∀ e, K (f e)) :
    ∀ es : List Expr, K (rebuildListM f es)
  | [] => hK.pure _
  | e :: es => by
    rw [rebuildListM]
    refine hK.bind (rebuildM_closed hK hf e) fun e => ?_
    exact hK.bind (rebuildListM_closed hK hf es) fun es => hK.pure _
termination_by structural es => es

theorem rebuildOptionM_closed (hK : Sequential m K) (hf : ∀ e, K (f e)) :
    ∀ e? : Option Expr, K (rebuildOptionM f e?)
  | none => hK.pure _
  | some e => by
    rw [rebuildOptionM]
    exact hK.bind (rebuildM_closed hK hf e) fun e => hK.pure _
termination_by structural e? => e?

theorem rebuildFieldsM_closed (hK : Sequential m K) (hf : ∀ e, K (f e)) :
    ∀ fields : List (String × Expr),
      K (rebuildFieldsM f fields)
  | [] => hK.pure _
  | (name, e) :: fields => by
    rw [rebuildFieldsM]
    refine hK.bind (rebuildM_closed hK hf e) fun e => ?_
    exact hK.bind (rebuildFieldsM_closed hK hf fields) fun fields => hK.pure _
termination_by structural fields => fields
end

end Expr
end ArrayLang
