import ArrayLang.Proofs.Typing.Annotation
import ArrayLang.Typing.Inference

/-!
# What inference gives

Inference gives a type to every parameter, and to variables that the function names only.
-/

namespace ArrayLang

open Typing

variable {q : String → Prop} {I : Session → Prop} {specialize : Specializer}
  {params : List (String × Ty)}

/-- What inference keeps of the types found so far: all parameters have one, and every variable that
has one satisfies `q`. -/
structure InferState.Covers (q : String → Prop) (params : List (String × Ty)) (st : InferState) :
    Prop where
  names {name : String} {ty : Ty} (h : st.env.find? name = some ty) : q name
  params : ∀ p ∈ params, ∃ ty, st.env.find? p.1 = some ty

namespace Infer

variable {α β : Type}

/-- The walk keeps `I` and, of the types found so far, what inference keeps. -/
def Keeps (q : String → Prop) (I : Session → Prop) (params : List (String × Ty))
    (x : Infer α) : Prop :=
  MeetsFrom I (InferState.Covers q params) x fun _ => InferState.Covers q params

namespace Keeps

theorem bind {x : Infer α} {f : α → Infer β} (hx : Keeps q I params x)
    (hf : ∀ a, Keeps q I params (f a)) : Keeps q I params (x >>= f) :=
  MeetsFrom.bind hx hf

theorem pure (a : α) : Keeps q I params (Pure.pure a : Infer α) :=
  MeetsFrom.pure fun _ h => h

theorem get : Keeps q I params (get : Infer InferState) :=
  MeetsFrom.get.mono (fun _ h => h) fun _ _ h => h.2

theorem modify {f : InferState → InferState}
    (h : ∀ st, st.Covers q params → (f st).Covers q params) : Keeps q I params (modify f) :=
  MeetsFrom.modify h

theorem lift {x : Typing α} {P : α → Prop} (hx : Meets I x P) :
    Keeps q I params (liftM x : Infer α) :=
  (MeetsFrom.lift hx).mono (fun _ h => h) fun _ _ h => h.1

theorem fail (cause : TypingError) : Keeps q I params (Typing.fail cause : Infer α) :=
  lift (P := fun _ => True) (Meets.fail cause)

theorem ite {c : Prop} [Decidable c] {x y : Infer α} (hx : c → Keeps q I params x)
    (hy : ¬c → Keeps q I params y) : Keeps q I params (if c then x else y) :=
  MeetsFrom.ite hx hy

theorem forM {f : α → Infer Unit} {l : List α} (h : ∀ a ∈ l, Keeps q I params (f a)) :
    Keeps q I params (l.forM f) := by
  induction l with
  | nil => exact pure ()
  | cons a l ih =>
    refine bind (h a List.mem_cons_self) fun _ => ?_
    exact ih fun b hb => h b (List.mem_cons_of_mem _ hb)

end Keeps

/-! ## Widening types -/

theorem insert_covers {st : InferState} {name : String} {ty : Ty} {version : Nat} (hname : q name)
    (h : st.Covers q params) :
    InferState.Covers q params { st with env := st.env.insert name ty, version } where
  names {other _} hother := by
    rw [NameMap.find?_insert] at hother
    by_cases heq : other = name
    · rw [heq]
      exact hname
    · rw [if_neg heq] at hother
      exact h.names hother
  params p hp := by
    show ∃ found, (st.env.insert name ty).find? p.1 = some found
    rw [NameMap.find?_insert]
    by_cases heq : p.1 = name
    · exact ⟨ty, if_pos heq⟩
    · rw [if_neg heq]
      exact h.params p hp

theorem bindVar_keeps {name : String} (hname : q name) (ty : Ty) :
    Keeps q I params (bindVar name ty) := by
  unfold bindVar
  refine Keeps.get.bind fun st => ?_
  cases st.env.find? name with
  | none => exact .modify fun st hst => insert_covers hname hst
  | some known =>
    refine (Keeps.lift (Meets.require_any _ _)).bind fun joined => ?_
    exact .ite (fun _ => .modify fun st hst => insert_covers hname hst) fun _ => .pure _

theorem bindReturn_keeps (ty : Ty) : Keeps q I params (bindReturn ty) := by
  unfold bindReturn
  refine Keeps.get.bind fun st => ?_
  cases st.returned? with
  | none => exact .modify fun st hst => ⟨hst.names, hst.params⟩
  | some known =>
    refine (Keeps.lift (Meets.require_any _ _)).bind fun joined => ?_
    exact .ite (fun _ => .modify fun st hst => ⟨hst.names, hst.params⟩) fun _ => .pure _

theorem changes_keeps {pass : Infer Unit} (h : Keeps q I params pass) :
    Keeps q I params (changes pass) := by
  unfold changes
  exact Keeps.get.bind fun _ => h.bind fun _ => Keeps.get.bind fun _ => .pure _

/-- Repeating a pass keeps what one pass keeps. -/
theorem settle_keeps {pass : Infer Unit} (h : Keeps q I params pass) (name : String) (passes : Nat) :
    Keeps q I params (settle name pass passes) := by
  induction passes with
  | zero =>
    rw [settle]
    exact (changes_keeps h).bind fun changed => .ite (fun _ => .fail _) fun _ => .pure _
  | succ passes ih =>
    rw [settle]
    exact (changes_keeps h).bind fun changed => .ite (fun _ => ih) fun _ => .pure _

/-! ## Walking code -/

/-- Annotating expressions whose variables satisfy `q` keeps `I`. -/
def Annotates (q : String → Prop) (I : Session → Prop) (specialize : Specializer) : Prop :=
  ∀ (env : TypeEnv) (e : Expr), (∀ name ∈ e.variables, q name) →
    Meets I (annotate specialize env e) fun _ => True

theorem annotates (hI : SourceInvariant q I) (hspec : specialize.Keeps q I) :
    Annotates q I specialize :=
  fun _ e he => (annotate_meets hI hspec e he).mono fun _ _ => trivial

theorem annotates_any (specialize : Specializer) : Annotates q anySession specialize :=
  fun _ _ _ => .any _

theorem annotated_keeps (hann : Annotates q I specialize) {e : Expr}
    (he : ∀ name ∈ e.variables, q name) : Keeps q I params (annotated specialize e) := by
  unfold annotated
  exact Keeps.get.bind fun st => .lift (hann st.env e he)

theorem typed_keeps (hann : Annotates q I specialize) {e : Expr}
    (he : ∀ name ∈ e.variables, q name) : Keeps q I params (typed specialize e) := by
  unfold typed
  exact (annotated_keeps hann he).bind fun e => .lift (Meets.typeOf e)

mutual
theorem bindTarget_keeps (hann : Annotates q I specialize) {node : Node}
    {ty? : Option Ty} (h : ∀ name ∈ Expr.variables ⟨node, ty?⟩, q name) (ty : Ty) :
    Keeps q I params (bindTarget specialize ⟨node, ty?⟩ ty) := by
  cases node with
  | var name =>
    rw [bindTarget]
    exact bindVar_keeps (h name List.mem_cons_self) ty
  | tuple targets =>
    cases ty with
    | tuple types =>
      rw [bindTarget]
      exact .ite (fun _ => bindTargets_keeps hann targets types h) fun _ => .fail _
    | _ => exact .fail _
  | index base key =>
    rw [bindTarget]
    exact (annotated_keeps hann h).bind fun _ => .pure _
  | _ => exact .fail _
termination_by sizeOf node

theorem bindTargets_keeps (hann : Annotates q I specialize) :
    ∀ (targets : List Expr) (types : List Ty), (∀ name ∈ Expr.variablesAll targets, q name) →
      Keeps q I params (bindTargets specialize targets types)
  | ⟨node, ty?⟩ :: targets, ty :: types, h => by
    rw [Expr.variablesAll, List.forall_mem_append] at h
    rw [bindTargets]
    exact (bindTarget_keeps hann h.1 ty).bind fun _ =>
      bindTargets_keeps hann targets types h.2
  | [], _, _ => .pure _
  | _ :: _, [], _ => .pure _
termination_by targets => sizeOf targets
end

theorem bindSide_keeps (hann : Annotates q I specialize)
    (side : Phi → Expr) {merge : List Phi}
    (h : ∀ phi ∈ merge, q phi.name ∧ ∀ name ∈ (side phi).variables, q name) :
    Keeps q I params (bindSide specialize side merge) :=
  Keeps.forM fun phi hphi => (typed_keeps hann (h phi hphi).2).bind fun ty =>
    bindVar_keeps (h phi hphi).1 ty

mutual
theorem inferStmt_keeps (hann : Annotates q I specialize) :
    ∀ s : Stmt, (∀ name ∈ s.variables, q name) → Keeps q I params (inferStmt specialize s)
  | .assign ⟨node, ty?⟩ value, h => by
    rw [Stmt.variables, List.forall_mem_append] at h
    rw [inferStmt]
    exact (typed_keeps hann h.2).bind fun ty => bindTarget_keeps hann h.1 ty
  | .ret value, h => by
    rw [Stmt.variables] at h
    rw [inferStmt]
    exact (typed_keeps hann h).bind fun ty => bindReturn_keeps ty
  | .branch cond onTrue onFalse merge, h => by
    simp only [Stmt.variables, List.forall_mem_append] at h
    obtain ⟨⟨⟨hcond, htrue⟩, hfalse⟩, hmerge⟩ := h
    rw [Phi.forall_variablesAll] at hmerge
    rw [inferStmt]
    refine (annotated_keeps hann hcond).bind fun _ => ?_
    refine (inferBlock_keeps hann onTrue htrue).bind fun _ => ?_
    refine (inferBlock_keeps hann onFalse hfalse).bind fun _ => ?_
    refine Keeps.forM fun phi hphi => ?_
    obtain ⟨hname, hleft, hright⟩ := hmerge phi hphi
    refine (typed_keeps hann hleft).bind fun left => ?_
    refine (typed_keeps hann hright).bind fun right => ?_
    exact (bindVar_keeps hname left).bind fun _ => bindVar_keeps hname right
  | .loop cond body merge, h => by
    simp only [Stmt.variables, List.forall_mem_append] at h
    obtain ⟨⟨hcond, hbody⟩, hmerge⟩ := h
    rw [Phi.forall_variablesAll] at hmerge
    rw [inferStmt]
    refine (bindSide_keeps hann Phi.left fun phi hphi => ?_).bind fun _ => settle_keeps ?_ _ _
    · exact ⟨(hmerge phi hphi).1, (hmerge phi hphi).2.1⟩
    · refine (annotated_keeps hann hcond).bind fun _ => ?_
      refine (inferBlock_keeps hann body hbody).bind fun _ => ?_
      refine bindSide_keeps hann Phi.right fun phi hphi => ?_
      exact ⟨(hmerge phi hphi).1, (hmerge phi hphi).2.2⟩
termination_by structural s => s

theorem inferBlock_keeps (hann : Annotates q I specialize) :
    ∀ ss : Block, (∀ name ∈ Stmt.variablesAll ss, q name) →
      Keeps q I params (inferBlock specialize ss)
  | [], _ => by
    rw [inferBlock]
    exact .pure _
  | s :: ss, h => by
    rw [Stmt.variablesAll, List.forall_mem_append] at h
    rw [inferBlock]
    exact (inferStmt_keeps hann s h.1).bind fun _ => inferBlock_keeps hann ss h.2
termination_by structural ss => ss
end

end Infer

/-! ## Functions -/

theorem find?_foldl_insert {m : NameMap Ty} {name : String} (pairs : List (String × Ty)) :
    (∃ ty, (pairs.foldl (fun m (name, ty) => m.insert name ty) m).find? name = some ty)
      ↔ name ∈ pairs.map (·.1) ∨ ∃ ty, m.find? name = some ty := by
  induction pairs generalizing m with
  | nil => simp
  | cons p pairs ih =>
    rw [List.foldl_cons, ih, List.map_cons, List.mem_cons, NameMap.find?_insert]
    by_cases heq : name = p.1
    · simp [heq]
    · simp [heq]

/-- What inference gives types to, if annotating what the function names keeps `I`. -/
theorem inferFn_covers (hann : Infer.Annotates q I specialize) {func : FnDecl}
    (hfunc : func.Names q) (hparams : ∀ p ∈ params, q p.1) :
    Meets I (inferFn specialize func params) fun inference =>
      (∀ name ty, inference.env.find? name = some ty → q name)
        ∧ ∀ p ∈ params, ∃ ty, inference.env.find? p.1 = some ty := by
  have hstart : InferState.Covers q params ⟨.ofList params, none, 0⟩ := by
    refine ⟨fun {name ty} h => ?_, fun p hp => ?_⟩
    · rcases (find?_foldl_insert params).1 ⟨ty, h⟩ with h | ⟨_, h⟩
      · obtain ⟨p, hp, rfl⟩ := List.mem_map.1 h
        exact hparams p hp
      · cases h
    · exact (find?_foldl_insert params).2 (.inl (List.mem_map_of_mem hp))
  have hblock : Infer.Keeps q I params (Infer.inferBlock specialize func.body) :=
    Infer.inferBlock_keeps hann func.body hfunc.body
  have hwalk := Infer.settle_keeps hblock func.name Infer.maxPasses
  unfold inferFn
  refine (hwalk _ hstart).bind fun r hr => .pure ⟨fun name ty h => hr.names h, hr.params⟩

theorem inferFn_meets (hI : SourceInvariant q I) (hspec : specialize.Keeps q I) {func : FnDecl}
    (hfunc : func.Names q) (hparams : ∀ p ∈ params, q p.1) :
    Meets I (inferFn specialize func params) fun inference =>
      (∀ name ty, inference.env.find? name = some ty → q name)
        ∧ ∀ p ∈ params, ∃ ty, inference.env.find? p.1 = some ty :=
  inferFn_covers (Infer.annotates hI hspec) hfunc hparams

/-- Whatever the session, inference gives types to variables that the function names only. -/
theorem mem_variables_of_inferFn {func : FnDecl} {inference : Inference} {s t : Session}
    (hparams : ∀ p ∈ params, p.1 ∈ func.variables)
    (h : exec (inferFn specialize func params) s = (.ok inference, t)) {name : String} {ty : Ty}
    (hname : inference.env.find? name = some ty) : name ∈ func.variables := by
  have hmeets := inferFn_covers (q := (· ∈ func.variables)) (Infer.annotates_any specialize)
    (fun _ hname => hname) hparams
  exact ((hmeets s trivial).2 inference (congrArg Prod.fst h)).1 name ty hname

end ArrayLang
