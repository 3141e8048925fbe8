import ArrayLang.Interpreter.Evaluation
import ArrayLang.Proofs.Adverb
import ArrayLang.Proofs.Typing.Binding
import ArrayLang.Proofs.Typing.WellTyped

/-!
# Expressions on paired stores

An expression cannot tell paired stores apart: on values that stand for each other it changes both
stores alike, and has values that stand for each other or stops with the same error. Variables that
the expression does not read may differ freely.
-/

namespace ArrayLang

open Pairing Value

/-! ## Sessions -/

/-- The converter does not tell the numbers of blocks apart. -/
def Converter.Impartial (converter : Converter) : Prop :=
  ∀ (ρ : Pairing) (asked : Nat) (name : String) (as bs : List Value), ρ.OneToOne →
    PairedAll ρ as bs → converter asked name bs = converter asked name as

/-- The converter of the session, if there is one, does not tell the numbers of blocks apart. -/
def Session.Impartial (s : Session) : Prop :=
  ∀ converter, s.converter? = some converter → converter.Impartial

namespace Session

variable {s : Session}

theorem converter?_register (s : Session) (decl : FnDecl) :
    (s.register decl).2.converter? = s.converter? := by
  unfold register
  split <;> rfl

theorem converter?_convert (s : Session) (id : Nat) (name : String) (captured : List Value) :
    (s.convert id name captured).2.converter? = s.converter? := by
  unfold convert
  split
  · rfl
  · split
    · rfl
    · dsimp only
      split
      · rfl
      · exact converter?_register { s with requests := id :: s.requests } _

theorem Impartial.of_converter?_eq {s' : Session} (h : s.Impartial)
    (heq : s'.converter? = s.converter?) : s'.Impartial :=
  fun converter hconverter => h converter (heq ▸ hconverter)

/-- A host function is converted to the same function whatever blocks its captured values lie in. -/
theorem Impartial.convert_eq {ρ : Pairing} {as bs : List Value} (h : s.Impartial)
    (hρ : ρ.OneToOne) (hab : PairedAll ρ as bs) (id : Nat) (name : String) :
    s.convert id name bs = s.convert id name as := by
  unfold convert
  cases s.conversions.lookup id with
  | some decl => rfl
  | none =>
    cases hconverter : s.converter? with
    | none => rfl
    | some converter =>
      dsimp only
      rw [h converter hconverter ρ s.consultations name as bs hρ hab]

end Session

/-! ## Environments -/

variable {p : String → Prop} {ρ ρ' : Pairing} {env env' : Env}

/-- The variables that satisfy `p` have values that stand for each other. -/
def EnvPaired (ρ : Pairing) (p : String → Prop) (env env' : Env) : Prop :=
  ∀ x, p x → Option.Rel (Paired ρ) (env.find? x) (env'.find? x)

namespace EnvPaired

theorem mono (h : EnvPaired ρ p env env') (hle : ρ ≤ ρ') : EnvPaired ρ' p env env' :=
  fun x hx => Adverb.rel_paired_mono hle (h x hx)

theorem insert {v w : Value} (h : EnvPaired ρ p env env') (name : String) (hvw : v.Paired ρ w) :
    EnvPaired ρ p (env.insert name v) (env'.insert name w) := by
  intro x hx
  rw [NameMap.find?_insert, NameMap.find?_insert]
  split
  · exact .some hvw
  · exact h x hx

theorem insertAll {as bs : List Value} (h : EnvPaired ρ p env env') (names : List String)
    (hab : PairedAll ρ as bs) :
    EnvPaired ρ p (env.insertAll (names.zip as)) (env'.insertAll (names.zip bs)) := by
  induction names generalizing as bs env env' with
  | nil => exact h
  | cons name names ih =>
    cases hab with
    | nil => exact h
    | cons hvw hab => exact ih (h.insert name hvw) hab

theorem ofList {as bs : List (String × Value)}
    (hab : List.Forall₂ (Binding.EntryRel (Paired ρ)) as bs) :
    EnvPaired ρ p (.ofList as) (.ofList bs) := by
  have hinsert {env env' : Env} (h : EnvPaired ρ p env env') :
      EnvPaired ρ p (env.insertAll as) (env'.insertAll bs) := by
    induction hab generalizing env env' with
    | nil => exact h
    | cons hab _ ih =>
      rename_i a b _ _ _
      obtain ⟨heq, hvw⟩ := hab
      refine ih ?_
      show EnvPaired ρ p (env.insert a.1 a.2) (env'.insert b.1 b.2)
      rw [heq]
      exact h.insert _ hvw
  exact hinsert fun _ _ => .none

end EnvPaired

/-! ## Code that reads only some variables -/

/-- The node reads a variable only if it satisfies `p`. A function written in place may read any. -/
def Node.ReadsOnly (p : String → Prop) : Node → Prop
  | .var name => p name
  | .lambda _ => ∀ name, p name
  | _ => True

/-- The expression reads only variables that satisfy `p`. -/
def Expr.ReadsOnly (p : String → Prop) (e : Expr) : Prop :=
  e.Forall fun s => s.node.ReadsOnly p

/-- Whether the value of an expression is a scalar or lies in storage that evaluating it makes. -/
def Expr.makesNew (e : Expr) : Bool :=
  match e.node with
  | .lit _ | .array _ | .op _ _ | .cast _ _ | .alloc _ _ | .allPairs _ _ _ => true
  | _ => false

theorem Expr.readsOnly_of_forall (h : ∀ name, p name) (e : Expr) : e.ReadsOnly p := by
  intro s _
  cases s.node with
  | var name => exact h name
  | lambda decl => exact h
  | _ => trivial

theorem Expr.ReadsOnly.child {node : Node} {ty? : Option Ty} {c : Expr}
    (h : Expr.ReadsOnly p ⟨node, ty?⟩) (hc : c ∈ node.children) : c.ReadsOnly p :=
  Forall.of_mem_children h hc

namespace Interpreter

/-! ## Calls of functions -/

/-- Calls under any trace of one function on arguments that stand for each other are alike. -/
def ApplyAlike (apply : Apply) : Prop :=
  ∀ (ρ : Pairing) (trace : Trace) (func : FnDef) (as bs : List Value), PairedAll ρ as bs →
    Run.Alike Session.Impartial ρ Paired (apply trace func as) (apply trace func bs)

variable {α β : Type} {Q : Pairing → α → β → Prop} {apply : Apply} {trace : Trace}
  {v w : Value} {as bs : List Value}

theorem fail_alike (trace : Trace) (kind : Fault) :
    Run.Alike Session.Impartial ρ Q (fail trace kind : Eval α) (fail trace kind : Eval β) :=
  .throw _

/-- A fault that shows a text of the store. -/
theorem failText_alike (trace : Trace) {kind kind' : Store → Fault}
    (h : ∀ s t, ρ.Matches s t → kind' t = kind s) :
    Run.Alike Session.Impartial ρ Q (do fail trace (kind (← Run.getStore)) : Eval α)
      (do fail trace (kind' (← Run.getStore)) : Eval β) := by
  refine .getStore_bind fun s t hs => ?_
  rw [h s t hs]
  exact fail_alike trace _

theorem namedFn_alike (trace : Trace) (name : String) :
    Run.Alike Session.Impartial ρ (fun _ f g => g = f) (namedFn trace name)
      (namedFn trace name) := by
  refine .get_bind fun s t c hs => ?_
  dsimp only
  split
  · exact .pure rfl
  · exact fail_alike trace _

theorem operate_alike (trace : Trace) {plan : Store → Except Fault (Store → α × Store)}
    {plan' : Store → Except Fault (Store → β × Store)}
    (h : ∀ s t, ρ.Matches s t → Outcome.Alike (ρ.Makes s t Q) (plan s) (plan' t)) :
    Run.Alike Session.Impartial ρ Q (operate trace plan) (operate trace plan') :=
  .attempt _ h

/-- An operation on what was evaluated before gives a value in new storage. -/
theorem bind_anew {P : Pairing → α → β → Prop} {x : Eval α} {y : Eval β} {f : α → Eval Value}
    {g : β → Eval Value} (hx : Run.Alike Session.Impartial ρ P x y)
    (hf : ∀ ρ' a b, ρ ≤ ρ' → P ρ' a b →
      Run.Alike Session.Impartial ρ' (PairedAnew ρ') (f a) (g b)) :
    Run.Alike Session.Impartial ρ (PairedAnew ρ) (x >>= f) (y >>= g) :=
  hx.bind fun ρ' a b hle hab => (hf ρ' a b hle hab).mono fun _ _ _ _ h => h.of_le hle

theorem paired_of_anew {x y : Eval Value}
    (h : Run.Alike Session.Impartial ρ (PairedAnew ρ) x y) :
    Run.Alike Session.Impartial ρ Paired x y :=
  h.mono fun _ _ _ _ h => h.paired

theorem orFault_alike (trace : Trace) {r : Except Fault α} {r' : Except Fault β}
    (h : Outcome.Alike (Q ρ) r r') :
    Run.Alike Session.Impartial ρ Q (orFault trace r) (orFault trace r') :=
  .ofExcept _ h

theorem callValue_alike (happly : ApplyAlike apply) (trace : Trace) (hvw : v.Paired ρ w)
    (hab : PairedAll ρ as bs) :
    Run.Alike Session.Impartial ρ Paired (callValue apply trace v as)
      (callValue apply trace w bs) := by
  cases hvw with
  | closure func h => exact happly ρ trace func _ _ (h.append hab)
  | op o =>
    exact paired_of_anew (operate_alike trace fun s t hs => applyOperator_alike hs hab o Option.none)
  | host id name h =>
    unfold callValue
    refine Run.Alike.bind (.onContext (fun s t c hs hc => ?_)
      fun c hc => hc.of_converter?_eq (c.converter?_convert id name _)) fun ρ' r r' hle heq => ?_
    · rcases hc with hd | hc
      · rw [h.eq hd]
      · exact hc.convert_eq hs.toOneToOne h id name
    rw [heq]
    split
    · exact happly ρ' trace _ _ _ ((h.append hab).mono hle)
    · exact fail_alike trace _
  | none => exact failText_alike trace fun s t hs => rfl
  | scalar x => exact failText_alike trace fun s t hs => rfl
  | array hc => exact failText_alike trace fun s t hs => by rw [(Paired.array hc).text hs]
  | tuple h => exact failText_alike trace fun s t hs => by rw [(Paired.tuple h).text hs]
  | struct name h => exact failText_alike trace fun s t hs => by rw [(Paired.struct name h).text hs]
  | slice x => exact failText_alike trace fun s t hs => rfl

theorem readVar_alike (henv : EnvPaired ρ p env env') (trace : Trace) {name : String}
    (hname : p name) :
    Run.Alike Session.Impartial ρ Paired (readVar trace env name) (readVar trace env' name) := by
  unfold readVar
  rcases Option.none_or_some_of_rel (henv name hname) with ⟨ha, hb⟩ | ⟨a, b, ha, hb, hab⟩
  · rw [ha, hb]
    refine .get_bind fun s t c hs => ?_
    dsimp only
    split
    · exact .pure (.closure _ .nil)
    · exact fail_alike trace _
  · rw [ha, hb]
    exact .pure hab

theorem captureAll_alike (henv : EnvPaired ρ p env env') (hp : ∀ name, p name) (trace : Trace)
    (names : List String) :
    Run.Alike Session.Impartial ρ PairedAll (captureAll trace env names)
      (captureAll trace env' names) := by
  unfold captureAll
  induction names generalizing ρ with
  | nil => exact .pure .nil
  | cons name names ih =>
    rw [List.mapM_cons, List.mapM_cons]
    refine Run.Alike.bind (P := Paired) ?_ fun ρ₁ v w hle₁ hvw => ?_
    · rcases Option.none_or_some_of_rel (henv name (hp name)) with ⟨ha, hb⟩ | ⟨a, b, ha, hb, hab⟩
      · rw [ha, hb]
        exact fail_alike trace _
      · rw [ha, hb]
        exact .pure hab
    · refine (ih (henv.mono hle₁)).bind fun ρ₂ as bs hle₂ hab => ?_
      exact .pure (.cons (hvw.mono hle₂) hab)

theorem literalValue_paired (ρ : Pairing) (value : Literal) (ty? : Option Ty) :
    (literalValue value ty?).Paired ρ (literalValue value ty?) := by
  unfold literalValue
  split
  · exact .scalar _
  · exact ofLiteral_paired ρ value

theorem castValue_alike {s t : Store} (hs : ρ.Matches s t) (hvw : v.Paired ρ w) (elt : ElemType) :
    Outcome.Alike (ρ.Makes s t (PairedAnew ρ)) (castValue elt v s) (castValue elt w t) := by
  have htext := hvw.text hs
  cases hvw with
  | scalar x => exact .ok ⟨ρ, .refl hs, .scalar _⟩
  | array hc => exact .ok (newArray_makes (View.cast_alike hs hc elt))
  | _ =>
    unfold castValue
    dsimp only
    rw [htext]
    exact .error _

theorem allocValue_alike {s t : Store} (hs : ρ.Matches s t) (hvw : v.Paired ρ w)
    (elt : ElemType) :
    Outcome.Alike (ρ.Makes s t (PairedAnew ρ)) (allocValue elt v s) (allocValue elt w t) := by
  unfold allocValue
  rw [dims?_paired hvw, hvw.text hs]
  split
  · exact .ok (newArray_makes (View.zeros_alike hs elt _))
  · exact .error _

theorem axisValue_alike (trace : Trace) (hvw : v.Paired ρ w) :
    Run.Alike Session.Impartial ρ (fun _ a b => b = a) (axisValue trace v) (axisValue trace w) := by
  unfold axisValue
  rw [Adverb.axisOf_paired hvw]
  exact orFault_alike trace (.refl _ fun _ _ => rfl)

/-- The item at a position of a tuple or of the captured values of a closure. -/
theorem item_alike (trace : Trace) {kind kind' : Store → Fault}
    (h : ∀ s t, ρ.Matches s t → kind' t = kind s) (hab : PairedAll ρ as bs) (i : Nat) :
    Run.Alike Session.Impartial ρ Paired
      (match as[i]? with
        | some item => (pure item : Eval Value)
        | Option.none => do fail trace (kind (← Run.getStore)))
      (match bs[i]? with
        | some item => pure item
        | Option.none => do fail trace (kind' (← Run.getStore))) := by
  rcases Option.none_or_some_of_rel (hab.getElem? i) with ⟨ha, hb⟩ | ⟨a, b, ha, hb, hab⟩
  · rw [ha, hb]
    exact failText_alike trace h
  · rw [ha, hb]
    exact .pure hab

/-! ## Expressions -/

theorem callsAlike_callValue (happly : ApplyAlike apply) (trace : Trace) :
    Adverb.CallsAlike Session.Impartial (callValue apply trace) :=
  fun _ _ _ _ _ hf hab => callValue_alike happly trace hf hab

/-- The calls on the pairs of slices of two arrays. -/
theorem pairs_alike (happly : ApplyAlike apply) (trace : Trace) {f g : Value}
    (hfg : f.Paired ρ g) (axis : Nat) :
    PairedAll ρ as bs → Run.Alike Session.Impartial ρ (PairedAnew ρ)
      (match as with
        | [x, y] => runAdverb trace (Adverb.allPairs (callValue apply trace) f x y axis)
        | _ => fail trace (.adverb .allPairsArgs))
      (match bs with
        | [x, y] => runAdverb trace (Adverb.allPairs (callValue apply trace) g x y axis)
        | _ => fail trace (.adverb .allPairsArgs)) := by
  intro hab
  match hab with
  | .cons hx (.cons hy .nil) =>
    exact (Adverb.allPairs_alike (callsAlike_callValue happly trace) hfg hx hy axis).mapError _
  | .nil => exact fail_alike trace _
  | .cons _ .nil => exact fail_alike trace _
  | .cons _ (.cons _ (.cons _ _)) => exact fail_alike trace _

mutual
/-- An expression that reads only variables with paired values has the same value in both runs. -/
theorem evalExpr_alike (happly : ApplyAlike apply) (trace : Trace) :
    ∀ {ρ : Pairing} (e : Expr), e.ReadsOnly p → EnvPaired ρ p env env' →
      Run.Alike Session.Impartial ρ Paired (evalExpr apply trace env e) (evalExpr apply trace env' e)
  | ρ, ⟨.lit value, ty?⟩, _, _ => .pure (literalValue_paired ρ value ty?)
  | _, ⟨.var name, _⟩, he, henv => readVar_alike henv trace he.self
  | _, ⟨.tuple items, _⟩, he, henv =>
    (evalExprs_alike happly trace items (fun _ h => he.child h) henv).bind fun _ _ _ _ h =>
      .pure (.tuple h)
  | _, ⟨.proj base i, _⟩, he, henv => by
    rw [evalExpr, evalExpr]
    refine (evalExpr_alike happly trace base (he.child (.head _)) henv).bind fun ρ₁ v w _ hvw => ?_
    dsimp only
    have htext (s t : Store) (hs : ρ₁.Matches s t) := hvw.text hs
    cases hvw with
    | tuple h => exact item_alike trace (fun s t hs => by rw [htext s t hs]) h i
    | _ => exact failText_alike trace fun s t hs => by rw [htext s t hs]
  | _, ⟨.array items, ty?⟩, he, henv =>
    paired_of_anew (bind_anew (evalExprs_alike happly trace items (fun _ h => he.child h) henv)
      fun _ _ _ _ h => operate_alike trace fun s t hs => arrayLiteral_alike hs h ty?)
  | _, ⟨.index base key, _⟩, he, henv => by
    rw [evalExpr, evalExpr]
    refine (evalExpr_alike happly trace base (he.child (.head _)) henv).bind fun ρ₁ b b' hle₁ hb => ?_
    refine (evalExpr_alike happly trace key (he.child (.tail _ (.head _))) (henv.mono hle₁)).bind
      fun ρ₂ k k' hle₂ hk => ?_
    exact .getStore_bind fun s t hs =>
      orFault_alike trace (indexValue_alike hs (hb.mono hle₂) hk)
  | _, ⟨.slice start stop step, _⟩, he, henv => by
    rw [evalExpr, evalExpr]
    refine (evalExpr_alike happly trace start (he.child (.head _)) henv).bind fun ρ₁ v₁ w₁ hle₁ h₁ => ?_
    refine (evalExpr_alike happly trace stop (he.child (.tail _ (.head _))) (henv.mono hle₁)).bind
      fun ρ₂ v₂ w₂ hle₂ h₂ => ?_
    refine (evalOption_alike happly trace step (fun c hc => he.child (.tail _ (.tail _ hc)))
      (henv.mono (le_trans hle₁ hle₂))).bind fun ρ₃ v? w? hle₃ hvw => ?_
    have h₁ := h₁.mono (le_trans hle₂ hle₃)
    have h₂ := h₂.mono hle₃
    have h₃ : Paired ρ₃ (v?.getD .none) (w?.getD .none) := by
      cases hvw with
      | none => exact .none
      | some h => exact h
    rw [sliceBound?_paired h₁, sliceBound?_paired h₂, sliceBound?_paired h₃]
    split
    · exact .pure (.slice _)
    · refine .getStore_bind fun s t hs => ?_
      rw [PairedAll.listText hs (.cons h₁ (.cons h₂ (.cons h₃ .nil)))]
      exact fail_alike trace _
  | _, ⟨.attr base name, _⟩, he, henv => by
    rw [evalExpr, evalExpr]
    refine (evalExpr_alike happly trace base (he.child (.head _)) henv).bind fun ρ₁ v w _ hvw => ?_
    exact .getStore_bind fun s t hs => orFault_alike trace (attributeOf_alike hs hvw name)
  | _, ⟨.op o args, ty?⟩, he, henv =>
    paired_of_anew (bind_anew (evalExprs_alike happly trace args (fun _ h => he.child h) henv)
      fun _ _ _ _ h => operate_alike trace fun s t hs => applyOperator_alike hs h o ty?)
  | _, ⟨.opValue o, _⟩, _, _ => .pure (.op o)
  | _, ⟨.call func args, _⟩, he, henv => by
    rw [evalExpr, evalExpr]
    refine (evalExprs_alike happly trace args (fun _ h => he.child h) henv).bind
      fun ρ₁ as bs _ hab => ?_
    refine (namedFn_alike trace func).bind fun ρ₂ f g hle₂ hfg => ?_
    rw [hfg]
    exact happly ρ₂ trace f as bs (hab.mono hle₂)
  | _, ⟨.invoke callee args, _⟩, he, henv => by
    rw [evalExpr, evalExpr]
    refine (evalExpr_alike happly trace callee (he.child (.head _)) henv).bind fun ρ₁ f g hle₁ hfg => ?_
    refine (evalExprs_alike happly trace args (fun _ h => he.child (.tail _ h)) (henv.mono hle₁)).bind
      fun ρ₂ as bs hle₂ hab => ?_
    exact callValue_alike happly trace (hfg.mono hle₂) hab
  | _, ⟨.closure func values, _⟩, he, henv => by
    rw [evalExpr, evalExpr]
    refine (evalExprs_alike happly trace values (fun _ h => he.child h) henv).bind
      fun ρ₁ as bs _ hab => ?_
    refine (namedFn_alike trace func).bind fun ρ₂ f g hle₂ hfg => ?_
    rw [hfg]
    exact .pure (.closure f (hab.mono hle₂))
  | _, ⟨.captured base i, _⟩, he, henv => by
    rw [evalExpr, evalExpr]
    refine (evalExpr_alike happly trace base (he.child (.head _)) henv).bind fun ρ₁ v w _ hvw => ?_
    dsimp only
    have htext (s t : Store) (hs : ρ₁.Matches s t) := hvw.text hs
    cases hvw with
    | closure func h => exact item_alike trace (fun s t hs => by rw [htext s t hs]) h i
    | _ => exact failText_alike trace fun s t hs => by rw [htext s t hs]
  | _, ⟨.lambda decl, _⟩, he, henv => by
    rw [evalExpr, evalExpr]
    refine Run.Alike.bind (.onContext (fun _ _ _ _ _ => rfl)
      fun c hc => hc.of_converter?_eq (c.converter?_register decl)) fun ρ₁ d d' hle₁ heq => ?_
    rw [heq]
    refine (captureAll_alike (henv.mono hle₁) he.self trace d.nonlocals).bind
      fun ρ₂ as bs _ hab => ?_
    exact .pure (.closure _ hab)
  | _, ⟨.cast value elt, _⟩, he, henv =>
    paired_of_anew (bind_anew (evalExpr_alike happly trace value (he.child (.head _)) henv)
      fun _ _ _ _ h => operate_alike trace fun s t hs => castValue_alike hs h elt)
  | _, ⟨.struct name fields, _⟩, he, henv =>
    (evalFields_alike happly trace fields (fun _ h => he.child h) henv).bind fun _ _ _ _ h =>
      .pure (.struct name h)
  | _, ⟨.alloc elt shape, _⟩, he, henv =>
    paired_of_anew (bind_anew (evalExpr_alike happly trace shape (he.child (.head _)) henv)
      fun _ _ _ _ h => operate_alike trace fun s t hs => allocValue_alike hs h elt)
  | _, ⟨.map func args axis, _⟩, he, henv => by
    rw [evalExpr, evalExpr]
    refine (evalExpr_alike happly trace func (he.child (by simp [Node.children])) henv).bind
      fun ρ₁ f g hle₁ hfg => ?_
    refine (evalExprs_alike happly trace args (fun _ h => he.child (by simp [Node.children, h]))
      (henv.mono hle₁)).bind fun ρ₂ as bs hle₂ hab => ?_
    refine (evalExpr_alike happly trace axis (he.child (by simp [Node.children]))
      (henv.mono (le_trans hle₁ hle₂))).bind fun ρ₃ a b hle₃ haxis => ?_
    refine (axisValue_alike trace haxis).bind fun ρ₄ n m hle₄ heq => ?_
    rw [heq]
    have hle := le_trans hle₃ hle₄
    exact ((Adverb.map_alike (callsAlike_callValue happly trace) (hfg.mono (le_trans hle₂ hle))
      (hab.mono hle) n).mono fun _ _ _ _ h => h.paired).mapError _
  | _, ⟨.allPairs func args axis, _⟩, he, henv => by
    rw [evalExpr, evalExpr]
    refine (evalExpr_alike happly trace func (he.child (by simp [Node.children])) henv).bind
      fun ρ₁ f g hle₁ hfg => ?_
    refine (evalExprs_alike happly trace args (fun _ h => he.child (by simp [Node.children, h]))
      (henv.mono hle₁)).bind fun ρ₂ as bs hle₂ hab => ?_
    refine (evalExpr_alike happly trace axis (he.child (by simp [Node.children]))
      (henv.mono (le_trans hle₁ hle₂))).bind fun ρ₃ a b hle₃ haxis => ?_
    refine (axisValue_alike trace haxis).bind fun ρ₄ n m hle₄ heq => ?_
    rw [heq]
    have hle := le_trans hle₃ hle₄
    exact paired_of_anew (pairs_alike happly trace (hfg.mono (le_trans hle₂ hle)) n (hab.mono hle))
  | _, ⟨.reduce func combine start args axis, _⟩, he, henv => by
    rw [evalExpr, evalExpr]
    refine (evalExpr_alike happly trace func (he.child (by simp [Node.children])) henv).bind
      fun ρ₁ f g hle₁ hfg => ?_
    refine (evalExpr_alike happly trace combine (he.child (by simp [Node.children]))
      (henv.mono hle₁)).bind
      fun ρ₂ c d hle₂ hcd => ?_
    have henv₂ := henv.mono (le_trans hle₁ hle₂)
    -- Later operands only add pairs, so the functions are still paired when they are called.
    refine (evalOption_alike happly trace start (fun _ h => he.child (by simp_all [Node.children]))
      henv₂).bind fun ρ₃ a? b? hle₃ hstart => ?_
    refine (evalExprs_alike happly trace args (fun _ h => he.child (by simp [Node.children, h]))
      (henv₂.mono hle₃)).bind fun ρ₄ as bs hle₄ hab => ?_
    refine (evalExpr_alike happly trace axis (he.child (by simp [Node.children]))
      (henv₂.mono (le_trans hle₃ hle₄))).bind fun ρ₅ a b hle₅ haxis => ?_
    refine (axisValue_alike trace haxis).bind fun ρ₆ n m hle₆ heq => ?_
    rw [heq]
    have hle := le_trans hle₅ hle₆
    have hfold : Adverb.FoldPaired ρ₃ ⟨f, c, a?⟩ ⟨g, d, b?⟩ :=
      ⟨hfg.mono (le_trans hle₂ hle₃), hcd.mono hle₃, hstart⟩
    exact (Adverb.reduce_alike (callsAlike_callValue happly trace)
      (hfold.mono (le_trans hle₄ hle)) (hab.mono hle) n).mapError _
  | _, ⟨.scan func combine emit start args axis, _⟩, he, henv => by
    rw [evalExpr, evalExpr]
    refine (evalExpr_alike happly trace func (he.child (by simp [Node.children])) henv).bind
      fun ρ₁ f g hle₁ hfg => ?_
    refine (evalExpr_alike happly trace combine (he.child (by simp [Node.children]))
      (henv.mono hle₁)).bind
      fun ρ₂ c d hle₂ hcd => ?_
    have henv₂ := henv.mono (le_trans hle₁ hle₂)
    refine (evalExpr_alike happly trace emit (he.child (by simp [Node.children])) henv₂).bind
      fun ρ₃ h k hle₃ hemit => ?_
    have henv₃ := henv₂.mono hle₃
    refine (evalOption_alike happly trace start (fun _ h => he.child (by simp_all [Node.children]))
      henv₃).bind fun ρ₄ a? b? hle₄ hstart => ?_
    refine (evalExprs_alike happly trace args (fun _ h => he.child (by simp [Node.children, h]))
      (henv₃.mono hle₄)).bind fun ρ₅ as bs hle₅ hab => ?_
    refine (evalExpr_alike happly trace axis (he.child (by simp [Node.children]))
      (henv₃.mono (le_trans hle₄ hle₅))).bind fun ρ₆ a b hle₆ haxis => ?_
    refine (axisValue_alike trace haxis).bind fun ρ₇ n m hle₇ heq => ?_
    rw [heq]
    have hle := le_trans hle₆ hle₇
    have hfold : Adverb.FoldPaired ρ₄ ⟨f, c, a?⟩ ⟨g, d, b?⟩ :=
      ⟨hfg.mono (le_trans hle₂ (le_trans hle₃ hle₄)), hcd.mono (le_trans hle₃ hle₄), hstart⟩
    exact ((Adverb.scan_alike (callsAlike_callValue happly trace)
      (hfold.mono (le_trans hle₅ hle)) (hemit.mono (le_trans hle₄ (le_trans hle₅ hle)))
      (hab.mono hle) n).mono fun _ _ _ _ h => h.paired).mapError _
termination_by structural _ e => e

theorem evalExprs_alike (happly : ApplyAlike apply) (trace : Trace) :
    ∀ {ρ : Pairing} (es : List Expr), (∀ e ∈ es, e.ReadsOnly p) →
      EnvPaired ρ p env env' → Run.Alike Session.Impartial ρ PairedAll
      (evalExprs apply trace env es) (evalExprs apply trace env' es)
  | _, [], _, _ => .pure .nil
  | _, e :: es, hes, henv => by
    rw [evalExprs, evalExprs]
    refine (evalExpr_alike happly trace e (hes e List.mem_cons_self) henv).bind
      fun ρ₁ v w hle₁ hvw => ?_
    refine (evalExprs_alike happly trace es (fun c hc => hes c (List.mem_cons_of_mem _ hc))
      (henv.mono hle₁)).bind fun ρ₂ as bs hle₂ hab => ?_
    exact .pure (.cons (hvw.mono hle₂) hab)
termination_by structural _ es => es

theorem evalOption_alike (happly : ApplyAlike apply) (trace : Trace) :
    ∀ {ρ : Pairing} (e? : Option Expr), (∀ e ∈ e?.toList, e.ReadsOnly p) →
      EnvPaired ρ p env env' → Run.Alike Session.Impartial ρ (fun ρ => Option.Rel (Paired ρ))
      (evalOption apply trace env e?) (evalOption apply trace env' e?)
  | _, Option.none, _, _ => .pure .none
  | _, some e, he, henv =>
    (evalExpr_alike happly trace e (he e (.head _)) henv).bind fun _ _ _ _ h => .pure (.some h)
termination_by structural _ e? => e?

theorem evalFields_alike (happly : ApplyAlike apply) (trace : Trace) :
    ∀ {ρ : Pairing} (fields : List (String × Expr)),
      (∀ e ∈ fields.map (·.2), e.ReadsOnly p) → EnvPaired ρ p env env' →
      Run.Alike Session.Impartial ρ PairedFields (evalFields apply trace env fields)
        (evalFields apply trace env' fields)
  | _, [], _, _ => .pure .nil
  | _, (name, e) :: fields, hes, henv => by
    rw [evalFields, evalFields]
    refine (evalExpr_alike happly trace e (hes e (.head _)) henv).bind fun ρ₁ v w hle₁ hvw => ?_
    refine (evalFields_alike happly trace fields (fun c hc => hes c (.tail _ hc)) (henv.mono hle₁)).bind
      fun ρ₂ as bs hle₂ hab => ?_
    exact .pure (.cons name (hvw.mono hle₂) hab)
termination_by structural _ fields => fields
end

/-- The storage of what an allocating expression evaluates to is new. -/
theorem evalExpr_anew (happly : ApplyAlike apply) (trace : Trace) {e : Expr}
    (hnew : e.makesNew = true) (he : e.ReadsOnly p)
    (henv : EnvPaired ρ p env env') :
    Run.Alike Session.Impartial ρ (PairedAnew ρ) (evalExpr apply trace env e)
      (evalExpr apply trace env' e) := by
  have hchild (c : Expr) (hc : c ∈ e.children) : c.ReadsOnly p := Expr.Forall.of_mem_children he hc
  obtain ⟨node, ty?⟩ := e
  cases node with
  | lit value => exact .pure (literalValue_paired _ value ty?)
  | array items =>
    exact bind_anew (evalExprs_alike happly trace items hchild henv) fun _ _ _ _ h =>
      operate_alike trace fun s t hs => arrayLiteral_alike hs h ty?
  | op o args =>
    exact bind_anew (evalExprs_alike happly trace args hchild henv) fun _ _ _ _ h =>
      operate_alike trace fun s t hs => applyOperator_alike hs h o ty?
  | cast value elt =>
    exact bind_anew (evalExpr_alike happly trace value (hchild _ (.head _)) henv) fun _ _ _ _ h =>
      operate_alike trace fun s t hs => castValue_alike hs h elt
  | alloc elt shape =>
    exact bind_anew (evalExpr_alike happly trace shape (hchild _ (.head _)) henv) fun _ _ _ _ h =>
      operate_alike trace fun s t hs => allocValue_alike hs h elt
  | allPairs func args axis =>
    rw [evalExpr, evalExpr]
    refine bind_anew (evalExpr_alike happly trace func (hchild _ (by simp [Expr.children,
      Node.children])) henv) fun ρ₁ f g hle₁ hfg => ?_
    refine bind_anew (evalExprs_alike happly trace args (fun c hc => hchild c (by simp [Expr.children,
      Node.children, hc])) (henv.mono hle₁)) fun ρ₂ as bs hle₂ hab => ?_
    refine bind_anew (evalExpr_alike happly trace axis (hchild _ (by simp [Expr.children,
      Node.children])) (henv.mono (le_trans hle₁ hle₂))) fun ρ₃ a b hle₃ haxis => ?_
    refine bind_anew (axisValue_alike trace haxis) fun ρ₄ n m hle₄ heq => ?_
    rw [heq]
    have hle := le_trans hle₃ hle₄
    exact pairs_alike happly trace (hfg.mono (le_trans hle₂ hle)) n (hab.mono hle)
  | _ => cases hnew

end Interpreter
end ArrayLang
