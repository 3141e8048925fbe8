import ArrayLang.Proofs.Interpreter.ResultTypes
import ArrayLang.Typing.Annotate
import ArrayLang.Typing.Check

/-!
# Images of source code

The image of first-order source code is the same code with types. A call names a specialization of the
function, and passes the defaults of the parameters that are left out. Scalars are cast where an operator,
a literal or a condition converts them anyway. Nothing else is converted, so that a variable has the same
value in the code and in its image. The relation says what specialized code may look like, without saying
how it is made.

Calls lead to specializations for given signatures only, so that nothing has to be known about the other
functions of a session.
-/

namespace ArrayLang

open TypingRule

section
variable (c : Session) (calls : Signature → Prop) (scope : TypeEnv)

/-! ## Expressions -/

mutual
/-- `e'` is the image of `e` and has the given type. The variables have their types in `scope`. -/
inductive Expr.Image : Expr → Expr → Ty → Prop
  | lit (value : Literal) : Expr.Image (.plain (.lit value)) (.typed (.lit value) value.ty) value.ty
  | var {name : String} {ty : Ty} (h : scope.find? name = some ty) :
    Expr.Image (.plain (.var name)) (.typed (.var name) ty) ty
  | tuple {items items' : List Expr} {types : List Ty} (h : Expr.Images items items' types) :
    Expr.Image (.plain (.tuple items)) (.typed (.tuple items') (.tuple types)) (.tuple types)
  | proj {base base' : Expr} {i : Nat} {baseTy ty : Ty} (h : Expr.Image base base' baseTy)
    (hty : itemType baseTy i = .ok ty) :
    Expr.Image (.plain (.proj base i)) (.typed (.proj base' i) ty) ty
  | array {items items' : List Expr} {types : List Ty} {elt : ElemType}
    (h : Expr.OperandImages elt items items' types) (hty : literalType types = .ok (.array elt 1)) :
    Expr.Image (.plain (.array items)) (.typed (.array items') (.array elt 1)) (.array elt 1)
  | index {base base' index index' : Expr} {baseTy indexTy ty : Ty} (hbase : Expr.Image base base' baseTy)
    (hindex : Expr.Image index index' indexTy) (hty : indexType baseTy index indexTy = .ok ty) :
    Expr.Image (.plain (.index base index)) (.typed (.index base' index') ty) ty
  | slice {start start' stop stop' step step' : Expr} {startTy stopTy stepTy : Ty}
    (hstart : Expr.Image start start' startTy) (hstop : Expr.Image stop stop' stopTy)
    (hstep : Expr.Image step step' stepTy)
    (hbounds : isSliceBound startTy ∧ isSliceBound stopTy ∧ isSliceBound stepTy) :
    Expr.Image (.plain (.slice start stop (some step)))
      (.typed (.slice start' stop' (some step')) (.slice startTy stopTy stepTy))
      (.slice startTy stopTy stepTy)
  | attr {base base' : Expr} {name : String} {baseTy ty : Ty} (h : Expr.Image base base' baseTy)
    (hty : attributeType baseTy name = .ok ty) :
    Expr.Image (.plain (.attr base name)) (.typed (.attr base' name) ty) ty
  | op {op : Operator} {args args' : List Expr} {types expected : List Ty} {elt : ElemType}
    (h : Expr.OperandImages elt args args' types) (hexpected : op.expectedTypes? types = some expected)
    (helt : expected.head?.bind Ty.elt? = some elt) :
    Expr.Image (.plain (.op op args)) (.typed (.op op args') (op.resultType expected))
      (op.resultType expected)
  | call {func : String} {args args' : List Expr} {types : List Ty} {decl : FnDecl} {f : TypedFn}
    {defaults : List Literal} (h : Expr.Images args args' types)
    (hcalls : calls (func, types ++ defaults.map Literal.ty))
    (hdecl : c.sources.find? func = some decl)
    (hspec : c.specialization? (func, types ++ defaults.map Literal.ty) = some f)
    (hmany : args.length ≤ decl.params.positional.length)
    (hdefaults : (decl.params.positional.drop args.length).map decl.params.default? = defaults.map some) :
    Expr.Image (.plain (.call func args))
      (.typed (.call f.name (args' ++ defaults.map Annotate.literal)) f.returnType) f.returnType
  | cast {value value' : Expr} {elt : ElemType} {valueTy ty : Ty} (h : Expr.Image value value' valueTy)
    (hty : castType valueTy elt = .ok ty) (helt : elt.IsCarrier) :
    Expr.Image (.plain (.cast value elt)) (.typed (.cast value' elt) ty) ty
  | struct {name : String} {fields fields' : List (String × Expr)} {types : List (String × Ty)}
    (h : Expr.FieldImages fields fields' types) :
    Expr.Image (.plain (.struct name fields)) (.typed (.struct name fields') (.struct name types))
      (.struct name types)
  | alloc {shape shape' : Expr} {elt : ElemType} {shapeTy ty : Ty} (h : Expr.Image shape shape' shapeTy)
    (hty : allocType elt shapeTy = .ok ty) (helt : elt.IsCarrier) :
    Expr.Image (.plain (.alloc elt shape)) (.typed (.alloc elt shape') ty) ty

/-- The same of several expressions. -/
inductive Expr.Images : List Expr → List Expr → List Ty → Prop
  | nil : Expr.Images [] [] []
  | cons {e e' : Expr} {es es' : List Expr} {ty : Ty} {types : List Ty} (h : Expr.Image e e' ty)
    (hs : Expr.Images es es' types) : Expr.Images (e :: es) (e' :: es') (ty :: types)

/-- The same of several expressions that are used at an element type. Scalars of another one are cast
to it. -/
inductive Expr.OperandImages : ElemType → List Expr → List Expr → List Ty → Prop
  | nil (elt : ElemType) : Expr.OperandImages elt [] [] []
  | same {elt : ElemType} {e e' : Expr} {es es' : List Expr} {ty : Ty} {types : List Ty}
    (h : Expr.Image e e' ty) (helt : ty.elt? = some elt) (hs : Expr.OperandImages elt es es' types) :
    Expr.OperandImages elt (e :: es) (e' :: es') (ty :: types)
  | cast {elt found : ElemType} {e e' : Expr} {es es' : List Expr} {types : List Ty}
    (h : Expr.Image e e' (.scalar found)) (hne : found ≠ elt)
    (hs : Expr.OperandImages elt es es' types) :
    Expr.OperandImages elt (e :: es) (.typed (.cast e' elt) (.scalar elt) :: es')
      (.scalar found :: types)

/-- The same of named expressions. -/
inductive Expr.FieldImages : List (String × Expr) → List (String × Expr) → List (String × Ty) → Prop
  | nil : Expr.FieldImages [] [] []
  | cons {name : String} {e e' : Expr} {es es' : List (String × Expr)} {ty : Ty}
    {types : List (String × Ty)} (h : Expr.Image e e' ty) (hs : Expr.FieldImages es es' types) :
    Expr.FieldImages ((name, e) :: es) ((name, e') :: es') ((name, ty) :: types)
end

/-- A condition is a truth value, or a scalar that is cast to one. -/
inductive Expr.CondImage : Expr → Expr → Prop
  | same {e e' : Expr} (h : Expr.Image c calls scope e e' .bool) : Expr.CondImage e e'
  | cast {e e' : Expr} {elt : ElemType} (h : Expr.Image c calls scope e e' (.scalar elt))
    (hne : elt ≠ .bool) : Expr.CondImage e (.typed (.cast e' .bool) .bool)

/-! ## Statements -/

mutual
/-- A target made of variables, with its type. -/
inductive Expr.TargetImage : Expr → Expr → Ty → Prop
  | var {name : String} {ty : Ty} (h : scope.find? name = some ty) :
    Expr.TargetImage (.plain (.var name)) (.typed (.var name) ty) ty
  | tuple {items items' : List Expr} {types : List Ty} (h : Expr.TargetImages items items' types) :
    Expr.TargetImage (.plain (.tuple items)) (.typed (.tuple items') (.tuple types)) (.tuple types)

/-- The same of several targets. -/
inductive Expr.TargetImages : List Expr → List Expr → List Ty → Prop
  | nil : Expr.TargetImages [] [] []
  | cons {e e' : Expr} {es es' : List Expr} {ty : Ty} {types : List Ty} (h : Expr.TargetImage e e' ty)
    (hs : Expr.TargetImages es es' types) : Expr.TargetImages (e :: es) (e' :: es') (ty :: types)
end

/-- A reconciled variable has the type of both its sides. -/
inductive Phi.Image : Phi → Phi → Prop
  | mk {name : String} {left left' right right' : Expr} {ty : Ty} (h : scope.find? name = some ty)
    (hleft : Expr.Image c calls scope left left' ty) (hright : Expr.Image c calls scope right right' ty) :
    Phi.Image ⟨name, left, right⟩ ⟨name, left', right'⟩

variable (result : Ty)

mutual
/-- `s'` is the image of `s` in a function that returns values of type `result`. Whatever is assigned,
reconciled or returned has the type of its target, and what is written to a part of an array fits it. -/
inductive Stmt.Image : Stmt → Stmt → Prop
  | assign {target target' value value' : Expr} {ty : Ty}
    (htarget : Expr.TargetImage scope target target' ty)
    (hvalue : Expr.Image c calls scope value value' ty) :
    Stmt.Image (.assign target value) (.assign target' value')
  | write {base index slot value value' : Expr} {slotTy ty : Ty}
    (hslot : Expr.Image c calls scope (.plain (.index base index)) slot slotTy)
    (hvalue : Expr.Image c calls scope value value' ty) (hfits : Check.fitsSlot slotTy ty) :
    Stmt.Image (.assign (.plain (.index base index)) value) (.assign slot value')
  | ret {value value' : Expr} (h : Expr.Image c calls scope value value' result) :
    Stmt.Image (.ret value) (.ret value')
  | branch {cond cond' : Expr} {onTrue onTrue' onFalse onFalse' : List Stmt} {merge merge' : List Phi}
    (hcond : Expr.CondImage c calls scope cond cond') (htrue : Stmt.Images onTrue onTrue')
    (hfalse : Stmt.Images onFalse onFalse')
    (hmerge : List.Forall₂ (Phi.Image c calls scope) merge merge') :
    Stmt.Image (.branch cond onTrue onFalse merge) (.branch cond' onTrue' onFalse' merge')
  | loop {cond cond' : Expr} {body body' : List Stmt} {merge merge' : List Phi}
    (hcond : Expr.CondImage c calls scope cond cond') (hbody : Stmt.Images body body')
    (hmerge : List.Forall₂ (Phi.Image c calls scope) merge merge') :
    Stmt.Image (.loop cond body merge) (.loop cond' body' merge')

/-- The same of statements one after the other. -/
inductive Stmt.Images : List Stmt → List Stmt → Prop
  | nil : Stmt.Images [] []
  | cons {s s' : Stmt} {ss ss' : List Stmt} (h : Stmt.Image s s') (hs : Stmt.Images ss ss') :
    Stmt.Images (s :: ss) (s' :: ss')
end

end

/-! ## Functions -/

mutual
/-- The statement does not end without returning a value. -/
inductive Stmt.Returns : Stmt → Prop
  | ret (value : Expr) : Stmt.Returns (.ret value)
  | branch {cond : Expr} {onTrue onFalse : List Stmt} {merge : List Phi} (htrue : Stmt.SomeReturns onTrue)
    (hfalse : Stmt.SomeReturns onFalse) : Stmt.Returns (.branch cond onTrue onFalse merge)

/-- One of the statements does not end without returning a value. -/
inductive Stmt.SomeReturns : List Stmt → Prop
  | head {s : Stmt} {ss : List Stmt} (h : Stmt.Returns s) : Stmt.SomeReturns (s :: ss)
  | tail {s : Stmt} {ss : List Stmt} (h : Stmt.SomeReturns ss) : Stmt.SomeReturns (s :: ss)
end

/-- No variable is mistaken for a function, and values of the variables stay of their types. -/
structure Session.Admits (c : Session) (scope : TypeEnv) : Prop where
  carried {name : String} {ty : Ty} (h : scope.find? name = some ty) : ty.Carried
  unnamed {name : String} {ty : Ty} (h : scope.find? name = some ty) : c.sources.find? name = none

/-- The specialized function has the parameters of the source function and the image of its body. It
falls off the end only if it has no value. -/
structure FnDecl.Image (c : Session) (calls : Signature → Prop) (decl : FnDecl) (f : TypedFn)
    (types : TypeEnv) : Prop where
  nonlocals : decl.nonlocals = []
  rest : decl.params.rest? = none
  argNames : f.argNames = decl.params.positional
  params : List.Forall₂ (fun name ty => types.find? name = some ty) f.argNames f.inputTypes
  admits : c.Admits types
  body : Stmt.Images c calls types f.returnType decl.body f.body
  result : f.returnType.Carried
  returns : f.returnType = .none ∨ Stmt.SomeReturns decl.body

/-- The specializations for the signatures are images of their sources, and found under their names. No
source function shares its name with a specialization. -/
structure Session.Imaged (c : Session) (calls : Signature → Prop) : Prop where
  apart {name : String} {decl : FnDecl} (h : c.sources.find? name = some decl) :
    c.typed.find? name = none
  found {key : Signature} {f : TypedFn} (hkey : calls key) (h : c.specialization? key = some f) :
    c.typed.find? f.name = some f ∧ f.inputTypes = key.2
  image {key : Signature} {f : TypedFn} (hkey : calls key) (h : c.specialization? key = some f) :
    ∃ decl types, c.sources.find? key.1 = some decl ∧ decl.Image c calls f types

/-! ## Types of images -/

theorem Expr.Images.length_eq {c : Session} {calls : Signature → Prop} {scope : TypeEnv}
    {es es' : List Expr} {types : List Ty} (h : Expr.Images c calls scope es es' types) :
    es.length = types.length := by
  induction es generalizing es' types with
  | nil =>
    cases h
    rfl
  | cons e es ih =>
    cases h with
    | cons _ hs => exact congrArg (· + 1) (ih hs)

namespace Phi.Image

variable {c : Session} {calls : Signature → Prop} {scope : TypeEnv} {phi phi' : Phi}
  (h : phi.Image c calls scope phi')
include h

theorem left : phi'.name = phi.name ∧
    ∃ ty, scope.find? phi.name = some ty ∧ phi.left.Image c calls scope phi'.left ty := by
  cases h with
  | mk hty hleft _ => exact ⟨rfl, _, hty, hleft⟩

theorem right : phi'.name = phi.name ∧
    ∃ ty, scope.find? phi.name = some ty ∧ phi.right.Image c calls scope phi'.right ty := by
  cases h with
  | mk hty _ hright => exact ⟨rfl, _, hty, hright⟩

end Phi.Image

theorem Expr.TargetImages.length_eq {scope : TypeEnv} {es es' : List Expr} {types : List Ty}
    (h : Expr.TargetImages scope es es' types) :
    es.length = types.length ∧ es'.length = types.length := by
  induction es generalizing es' types with
  | nil =>
    cases h
    exact ⟨rfl, rfl⟩
  | cons e es ih =>
    cases h with
    | cons _ hs => exact ⟨congrArg (· + 1) (ih hs).1, congrArg (· + 1) (ih hs).2⟩

namespace TypingRule

variable {baseTy indexTy ty : Ty} {index : Expr} {types : List Ty} {elt : ElemType}

theorem itemType_carried {i : Nat} (h : itemType baseTy i = .ok ty) (hbase : baseTy.Carried) :
    ty.Carried := by
  unfold itemType at h
  split at h
  · split at h
    · rename_i hitem
      cases h
      cases hbase with
      | tuple hitems => exact hitems _ (List.mem_of_getElem? hitem)
    · cases h
  · cases h

theorem indexType_carried (h : indexType baseTy index indexTy = .ok ty) (hbase : baseTy.Carried) :
    ty.Carried := by
  rcases indexType_eq_ok h with ⟨elt, rank, dropped, rfl, -, -, rfl⟩ | ⟨types, n, rfl, -, -, hitem⟩
  · exact .arrayOf (hbase.elt rfl) _
  · cases hbase with
    | tuple hitems => exact hitems _ (List.mem_of_getElem? hitem)

theorem attributeType_carried {name : String} (h : attributeType baseTy name = .ok ty)
    (hbase : baseTy.Carried) : ty.Carried := by
  unfold attributeType at h
  split at h
  · split_ifs at h
    · cases h
      exact .tuple fun ty hty => List.eq_of_mem_replicate hty ▸ .scalar rfl
    · cases h
      exact .scalar rfl
  · cases hbase with
    | slice hstart hstop hstep => split_ifs at h <;> cases h <;> assumption
  · cases hbase with
    | struct hfields =>
      split at h
      · rename_i hlookup
        cases h
        obtain ⟨l₁, l₂, heq, -⟩ := List.lookup_eq_some_iff.1 hlookup
        exact hfields _ (heq ▸ List.mem_append_right _ List.mem_cons_self)
      · cases h
  · cases h

theorem castType_carried (h : castType baseTy elt = .ok ty) (helt : elt.IsCarrier) : ty.Carried := by
  unfold castType at h
  split at h
  · cases h
    exact .scalar helt
  · cases h
    exact .array helt _
  · cases h

theorem allocType_carried (h : allocType elt baseTy = .ok ty) (helt : elt.IsCarrier) : ty.Carried := by
  unfold allocType at h
  split at h
  · cases h
    exact .array helt _
  · split at h
    · split at h
      · cases h
        exact .array helt _
      · cases h
    · cases h

theorem forall_filterMap_elt (h : ∀ ty ∈ types, ty.Carried) :
    ∀ elt ∈ types.filterMap Ty.elt?, elt.IsCarrier := by
  intro elt helt
  obtain ⟨ty, hty, helt⟩ := List.mem_filterMap.1 helt
  exact (h ty hty).elt helt

theorem literalType_carried (h : literalType types = .ok (.array elt 1))
    (htypes : ∀ ty ∈ types, ty.Carried) : (Ty.array elt 1).Carried := by
  cases types with
  | nil =>
    cases h
    exact .array (show ElemType.float64.IsCarrier from rfl) 1
  | cons first rest =>
    obtain ⟨-, e, es, helts, rfl⟩ := literalType_eq_ok h
    have hcarriers := forall_filterMap_elt htypes
    rw [helts] at hcarriers
    exact .array (Operator.joinElts_induction (fun _ _ => ElemType.IsCarrier.join)
      (List.cons_ne_nil e es) hcarriers) 1

theorem resultType_carried {op : Operator} {expected : List Ty}
    (h : op.expectedTypes? types = some expected) (htypes : ∀ ty ∈ types, ty.Carried) :
    (op.resultType expected).Carried := by
  obtain ⟨hlength, elts, helts, rfl⟩ := Operator.expectedTypes?_eq_some_iff.1 h
  have hlists := Outcome.mapM_eq_some.1 helts
  have hcarriers : ∀ elt ∈ elts, elt.IsCarrier := by
    clear h hlength helts
    induction hlists with
    | nil => nofun
    | cons helt _ ih =>
      obtain ⟨hty, htypes⟩ := List.forall_mem_cons.1 htypes
      exact List.forall_mem_cons.2 ⟨hty.elt helt, ih htypes⟩
  -- An operator has an operand, so that there is an element type to compute with.
  obtain ⟨first, rest, rfl⟩ : ∃ first rest, types = first :: rest := by
    refine List.exists_cons_of_ne_nil fun hnil => ?_
    rw [hnil] at hlength
    exact absurd hlength.symm (Nat.ne_of_gt op.arity_pos)
  have hne : elts ≠ [] := by
    rintro rfl
    cases hlists
  have hinput := (Operator.joinElts_induction (fun _ _ => ElemType.IsCarrier.join) hne
    hcarriers).inputElt op.category
  unfold Operator.resultType
  refine .arrayOf ?_ _
  rw [List.map_cons, List.head?_cons, Option.bind_some, Operator.elt?_arrayOf, Option.getD_some]
  split
  · exact hinput
  · exact hinput
  · rfl
  · rfl

end TypingRule

/-! ## The element types of images -/

section
variable {c : Session} {calls : Signature → Prop} {scope : TypeEnv}

mutual
/-- The type of an image has the element types that scalars have on their own. -/
theorem Expr.Image.carried (hc : c.Imaged calls) (hscope : c.Admits scope) :
    ∀ {e e' : Expr} {ty : Ty}, e.Image c calls scope e' ty → ty.Carried
  | _, _, _, .lit value => by cases value <;> constructor <;> rfl
  | _, _, _, .var h => hscope.carried h
  | _, _, _, .tuple h => .tuple (Expr.Images.carried hc hscope h)
  | _, _, _, .proj h hty => itemType_carried hty (Expr.Image.carried hc hscope h)
  | _, _, _, .array h hty => literalType_carried hty (Expr.OperandImages.carried hc hscope h)
  | _, _, _, .index hbase _ hty => indexType_carried hty (Expr.Image.carried hc hscope hbase)
  | _, _, _, .slice hstart hstop hstep _ =>
    .slice (Expr.Image.carried hc hscope hstart) (Expr.Image.carried hc hscope hstop)
      (Expr.Image.carried hc hscope hstep)
  | _, _, _, .attr h hty => attributeType_carried hty (Expr.Image.carried hc hscope h)
  | _, _, _, .op h hexpected _ => resultType_carried hexpected (Expr.OperandImages.carried hc hscope h)
  | _, _, _, .call _ hkey _ hspec _ _ => by
    obtain ⟨_, _, -, himage⟩ := hc.image hkey hspec
    exact himage.result
  | _, _, _, .cast _ hty helt => castType_carried hty helt
  | _, _, _, .struct h => .struct (Expr.FieldImages.carried hc hscope h)
  | _, _, _, .alloc _ hty helt => allocType_carried hty helt

theorem Expr.Images.carried (hc : c.Imaged calls) (hscope : c.Admits scope) :
    ∀ {es es' : List Expr} {types : List Ty},
      Expr.Images c calls scope es es' types → ∀ ty ∈ types, ty.Carried
  | _, _, _, .nil => nofun
  | _, _, _, .cons h hs => List.forall_mem_cons.2
    ⟨Expr.Image.carried hc hscope h, Expr.Images.carried hc hscope hs⟩

theorem Expr.OperandImages.carried (hc : c.Imaged calls) (hscope : c.Admits scope) :
    ∀ {elt : ElemType} {es es' : List Expr} {types : List Ty},
      Expr.OperandImages c calls scope elt es es' types → ∀ ty ∈ types, ty.Carried
  | _, _, _, _, .nil _ => nofun
  | _, _, _, _, .same h _ hs | _, _, _, _, .cast h _ hs =>
    List.forall_mem_cons.2 ⟨Expr.Image.carried hc hscope h, Expr.OperandImages.carried hc hscope hs⟩

theorem Expr.FieldImages.carried (hc : c.Imaged calls) (hscope : c.Admits scope) :
    ∀ {es es' : List (String × Expr)} {types : List (String × Ty)},
      Expr.FieldImages c calls scope es es' types → ∀ p ∈ types, p.2.Carried
  | _, _, _, .nil => nofun
  | _, _, _, .cons h hs => List.forall_mem_cons.2
    ⟨Expr.Image.carried hc hscope h, Expr.FieldImages.carried hc hscope hs⟩
end

end
end ArrayLang
