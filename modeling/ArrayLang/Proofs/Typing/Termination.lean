import ArrayLang.Proofs.Typing.LoweringCongruence
import ArrayLang.Proofs.Typing.Signature

/-!
# When specialization answers

A signature that is met again while it is being specialized is refused. This bounds how deeply
specializations are nested as long as only finitely many signatures are met, and nothing else does: a
function that calls itself on arguments of ever new types is unfolded without end.

Fuel only cuts a specialization off. One that answers, with a function or with an error, does so in the
same way with any more fuel; and either a specialization answers with one unit of fuel more than there
are signatures in a given list, or it meets a signature that is not in the list.

## Main results

- `specialize_mono`: more fuel does not change an answer.
- `specialize_answers_or_leaves`: within a finite set of signatures there is an answer.
- `specialize_leaves_of_unanswered`: without an answer, ever new signatures are met.
- `specialize_growing`: a function that calls itself on a larger type is never specialized.
-/

namespace ArrayLang

open Typing

/-! ## Fuel -/

namespace Typing

variable {α : Type} {stop : TypingStop}

/-- The first computation does what the second does, unless it stops in the given way. -/
def Refines (stop : TypingStop) (x y : Typing α) : Prop :=
  ∀ s, (exec x s).1 = .error stop ∨ exec x s = exec y s

theorem refines_congruence (stop : TypingStop) : Congruence (Refines stop) where
  pure _ _ := .inr rfl
  fail _ _ := .inr rfl
  untyped _ := .inr rfl
  get _ := .inr rfl
  register _ _ := .inr rfl
  bind {_ _ x y f g} hxy hfg := by
    intro s
    rw [exec_bind, exec_bind]
    rcases hxy s with hstop | heq
    · cases hx : exec x s with
      | mk r t =>
        rw [hx] at hstop
        cases hstop
        exact .inl rfl
    · rw [heq]
      cases exec y s with
      | mk r t =>
        cases r with
        | error e => exact .inr rfl
        | ok a => exact hfg a t

theorem Refines.trans {x y z : Typing α} (hxy : Refines stop x y) (hyz : Refines stop y z) :
    Refines stop x z := by
  intro s
  rcases hxy s with hstop | heq
  · exact .inl hstop
  · rw [heq]
    exact hyz s

end Typing

variable {callees callees' : Specializer} {stop : TypingStop}

/-- A specialization is cut off if the functions that it calls are. -/
theorem specializeOnce_refines (hcallees : callees.Related (Refines stop) callees') :
    Specializer.Related (Refines stop) (specializeOnce callees) (specializeOnce callees') := by
  intro func params s
  rw [exec_specializeOnce, exec_specializeOnce]
  dsimp only
  cases s.specialization? (func.name, params.map (·.2)) with
  | some typed => exact .inr rfl
  | none =>
    dsimp only
    split
    · exact .inr rfl
    · -- The stop of the build is caught, and thrown again once the signature is out of progress.
      have hbuild := buildTypedFn_congr (refines_congruence stop) hcallees func params
      rcases hbuild (s.beginSpecialization (func.name, params.map (·.2))) with hstop | heq
      · cases hx : exec (buildTypedFn callees func params)
          (s.beginSpecialization (func.name, params.map (·.2))) with
        | mk r t =>
          rw [hx] at hstop
          cases hstop
          exact .inl rfl
      · rw [heq]
        exact .inr rfl

theorem specializeBound_refines_succ (fuel : Nat) :
    (specializeBound fuel).Related (Refines .outOfFuel) (specializeBound (fuel + 1)) := by
  induction fuel with
  | zero => exact fun _ _ _ => .inl rfl
  | succ fuel ih => exact specializeOnce_refines ih

theorem specializeBound_refines {fuel more : Nat} (hmore : fuel ≤ more) :
    (specializeBound fuel).Related (Refines .outOfFuel) (specializeBound more) := by
  induction hmore with
  | refl => exact fun _ _ _ => .inr rfl
  | @step more _ ih =>
    exact fun func params => (ih func params).trans (specializeBound_refines_succ more func params)

/-- A specialization that does not run out of fuel has the same answer, and does the same to the
session, with any more fuel. -/
theorem specialize_mono {fuel more : Nat} (hmore : fuel ≤ more) {name : String} {types : List Ty}
    {s : Session} (hanswer : (exec (specialize fuel name types) s).1 ≠ .error .outOfFuel) :
    exec (specialize more name types) s = exec (specialize fuel name types) s := by
  have hrefines := Annotate.specializeNamed_congr (refines_congruence .outOfFuel).lookups
    (specializeBound_refines hmore) name types s
  exact (hrefines.resolve_left hanswer).symm

/-! ## Finitely many signatures -/

/-- Specializes as `specializeBound` does, but stops at a signature that is not in the list. -/
def specializeWithin (known : List Signature) (leave : TypingStop) : Nat → Specializer
  | 0 => fun _ _ => throw .outOfFuel
  | fuel + 1 => fun func params =>
    if (func.name, params.map (·.2)) ∈ known then
      specializeOnce (specializeWithin known leave fuel) func params
    else throw leave

variable {known : List Signature} {leave : TypingStop}

/-- Staying within the list is specializing as usual. -/
theorem specializeWithin_refines (fuel : Nat) :
    (specializeWithin known leave fuel).Related (Refines leave) (specializeBound fuel) := by
  induction fuel with
  | zero => exact fun _ _ _ => .inr rfl
  | succ fuel ih =>
    intro func params
    rw [specializeWithin]
    dsimp only
    by_cases hknown : (func.name, params.map (·.2)) ∈ known
    · rw [if_pos hknown]
      exact specializeOnce_refines ih func params
    · rw [if_neg hknown]
      exact fun _ => .inl rfl

/-- While the given signatures are in progress, the computation does not run out of fuel, and they are
in progress again when it is done. -/
def Answers {α : Type} (active : List Signature) (x : Typing α) : Prop :=
  ∀ s, s.inProgress = active →
    (exec x s).1 ≠ .error .outOfFuel ∧ (exec x s).2.inProgress = active

theorem inProgress_register (s : Session) (decl : FnDecl) :
    (s.register decl).2.inProgress = s.inProgress := by
  unfold Session.register
  split <;> rfl

/-- As a congruence, answering says nothing about the second computation. -/
theorem answers_congruence (active : List Signature) : Congruence fun x _ => Answers active x where
  pure _ _ hs := ⟨by rintro ⟨⟩, hs⟩
  fail _ _ hs := ⟨by rintro ⟨⟩, hs⟩
  untyped _ hs := ⟨by rintro ⟨⟩, hs⟩
  get _ hs := ⟨by rintro ⟨⟩, hs⟩
  register decl s hs := ⟨by rintro ⟨⟩, (inProgress_register s decl).trans hs⟩
  bind {_ _ x _ f _} hx hf := by
    intro s hs
    obtain ⟨hanswer, hactive⟩ := hx s hs
    rw [exec_bind]
    cases h : exec x s with
    | mk r t =>
      rw [h] at hanswer hactive
      cases r with
      | error e => exact ⟨fun heq => hanswer (by cases heq; rfl), hactive⟩
      | ok a => exact hf a t hactive

/-- A signature of the list that comes into progress leaves fewer that are not. -/
theorem length_filter_inactive_lt {key : Signature} {active : List Signature} (hknown : key ∈ known)
    (hnew : key ∉ active) :
    (known.filter (· ∉ key :: active)).length < (known.filter (· ∉ active)).length := by
  have hfilter : known.filter (· ∉ key :: active)
      = (known.filter (· ∉ active)).filter (· ≠ key) := by
    rw [List.filter_filter]
    refine List.filter_congr fun other _ => ?_
    simp [List.mem_cons, not_or]
  rw [hfilter, List.length_filter_lt_length_iff_exists]
  exact ⟨key, List.mem_filter.2 ⟨hknown, by simpa using hnew⟩, by simp⟩

/-- Ending a specialization takes back what beginning it did. -/
theorem inProgress_endSpecialization {t : Session} {key : Signature} {active : List Signature}
    (hnew : key ∉ active) (ht : t.inProgress = key :: active) :
    (t.endSpecialization key).inProgress = active := by
  show t.inProgress.filter _ = active
  rw [ht, List.filter_cons_of_neg (by simp), List.filter_eq_self]
  intro other hother
  refine decide_eq_true ?_
  rintro rfl
  exact hnew hother

/-- A specialization answers if the functions that it calls are specialized with an answer while it is
in progress itself. -/
theorem specializeOnce_answers {active : List Signature} {func : FnDecl}
    {params : List (String × Ty)}
    (hcallees : func.signature params ∉ active →
      callees.Related (fun x _ => Answers (func.signature params :: active) x) callees) :
    Answers active (specializeOnce callees func params) := by
  intro s hs
  have hstep := specializeOnce_step callees func params s
  generalize exec (specializeOnce callees func params) s = run at hstep ⊢
  have hanswers (hnew : func.signature params ∉ active) :=
    buildTypedFn_congr (answers_congruence _) (hcallees hnew) func params
      (s.beginSpecialization (func.signature params)) (by rw [← hs]; rfl)
  cases hstep with
  | found hfound => exact ⟨by rintro ⟨⟩, hs⟩
  | refused hnone hactive => exact ⟨by rintro ⟨⟩, hs⟩
  | failed hnone hnew hbuild =>
    rw [hs] at hnew
    obtain ⟨hanswer, hactive⟩ := hanswers hnew
    rw [hbuild] at hanswer hactive
    exact ⟨fun heq => hanswer (by cases heq; rfl), inProgress_endSpecialization hnew hactive⟩
  | built hnone hnew hbuild =>
    rw [hs] at hnew
    obtain ⟨-, hactive⟩ := hanswers hnew
    rw [hbuild] at hactive
    exact ⟨by rintro ⟨⟩, inProgress_endSpecialization hnew hactive⟩

/-- Within the list, fuel for the signatures that are not in progress is enough: each nested
specialization puts one more of them in progress. -/
theorem specializeWithin_answers (hleave : leave ≠ .outOfFuel) (fuel : Nat)
    (active : List Signature) (hfuel : (known.filter (· ∉ active)).length < fuel) (func : FnDecl)
    (params : List (String × Ty)) :
    Answers active (specializeWithin known leave fuel func params) := by
  induction fuel generalizing active func params with
  | zero => omega
  | succ fuel ih =>
    rw [specializeWithin]
    dsimp only
    by_cases hknown : (func.name, params.map (·.2)) ∈ known
    · rw [if_pos hknown]
      refine specializeOnce_answers fun hnew => ?_
      have hless : (known.filter (· ∉ func.signature params :: active)).length
          < (known.filter (· ∉ active)).length :=
        length_filter_inactive_lt hknown hnew
      exact fun func params => ih _ (by omega) func params
    · rw [if_neg hknown]
      exact fun s hs => ⟨fun heq => hleave (by cases heq; rfl), hs⟩

/-- Specialization answers within any finite set of signatures, or leaves it: with one unit of fuel more
than there are signatures in the list, a run that stops at other signatures either has stopped there, or
has the answer that every run with as much fuel has. -/
theorem specialize_answers_or_leaves (known : List Signature) {leave : TypingStop}
    (hleave : leave ≠ .outOfFuel) (name : String) (types : List Ty) (s : Session) :
    let within := Annotate.specializeNamed (specializeWithin known leave (known.length + 1))
    let answer := exec (within name types) s
    answer.1 = .error leave
      ∨ (answer.1 ≠ .error .outOfFuel
        ∧ ∀ fuel, known.length < fuel → exec (specialize fuel name types) s = answer) := by
  intro within answer
  have hcallees : (specializeWithin known leave (known.length + 1)).Related
      (fun x _ => Answers s.inProgress x) (specializeWithin known leave (known.length + 1)) := by
    -- Signatures that are in progress at the start only leave fewer to be met.
    have hfuel : (known.filter (· ∉ s.inProgress)).length < known.length + 1 :=
      Nat.lt_succ_of_le (List.length_filter_le _ _)
    exact fun func params => specializeWithin_answers hleave _ _ hfuel func params
  have hanswer : answer.1 ≠ .error .outOfFuel :=
    (Annotate.specializeNamed_congr (answers_congruence _).lookups hcallees name types s rfl).1
  have hrefines : Refines leave (within name types) (specialize (known.length + 1) name types) :=
    Annotate.specializeNamed_congr (refines_congruence leave).lookups (specializeWithin_refines _)
      name types
  rcases hrefines s with hleft | hsame
  · exact .inl hleft
  · refine .inr ⟨hanswer, fun fuel hmore => ?_⟩
    have hbound : answer = exec (specialize (known.length + 1) name types) s := hsame
    rw [hbound] at hanswer ⊢
    exact specialize_mono hmore hanswer

/-- A specialization that no fuel is enough for meets signatures outside every finite set. -/
theorem specialize_leaves_of_unanswered {name : String} {types : List Ty} {s : Session}
    (hnever : ∀ fuel, (exec (specialize fuel name types) s).1 = .error .outOfFuel)
    (known : List Signature) {leave : TypingStop} (hleave : leave ≠ .outOfFuel) :
    (exec (Annotate.specializeNamed (specializeWithin known leave (known.length + 1)) name types)
      s).1 = .error leave := by
  rcases specialize_answers_or_leaves known hleave name types s with hleft | ⟨hanswer, hsame⟩
  · exact hleft
  · have hfuel := hnever (known.length + 1)
    rw [hsame _ (Nat.lt_succ_self _)] at hfuel
    exact absurd hfuel hanswer

/-- `fn f(x): return f(x)` is refused as soon as it calls itself. -/
example :
    let f : FnDecl := ⟨"f", ⟨["x"], [], none⟩, [],
      [.ret (.plain (.call "f" [.plain (.var "x")]))]⟩
    (exec (specialize 2 "f" [.scalar .int64]) (.ofSources none [f])).1
      = .error (.error (.recursive "f")) := by
  rfl

/-! ## Ever new signatures -/

/-- A type inside a number of tuples of one item. -/
def Ty.nest (ty : Ty) : Nat → Ty
  | 0 => ty
  | n + 1 => .tuple [ty.nest n]

theorem Ty.sizeOf_nest_lt (ty : Ty) {m n : Nat} (hmn : m < n) :
    sizeOf (ty.nest m) < sizeOf (ty.nest n) := by
  induction hmn with
  | refl =>
    rw [nest]
    simp
    omega
  | step _ ih =>
    rw [nest]
    simp
    omega

theorem Ty.nest_ne (ty : Ty) {m n : Nat} (hmn : m < n) : ty.nest m ≠ ty.nest n := by
  intro heq
  have hlt := ty.sizeOf_nest_lt hmn
  rw [heq] at hlt
  omega

/-- `fn f(x): return f((x,))` -/
def growing : FnDecl :=
  ⟨"f", ⟨["x"], [], none⟩, [],
    [.ret (.plain (.call "f" [.plain (.tuple [.plain (.var "x")])]))]⟩

/-- A session with the function and none of its specializations. -/
structure Session.Growing (s : Session) : Prop where
  source : s.sources.find? "f" = some growing
  typed : s.typed.find? "f" = none
  specializations : s.specializations = []

namespace Typing

theorem error_bind {α β : Type} {x : Typing α} {f : α → Typing β} {e : TypingStop} {s : Session}
    (h : (exec x s).1 = .error e) : (exec (x >>= f) s).1 = .error e := by
  rw [exec_bind]
  cases hx : exec x s with
  | mk r t =>
    rw [hx] at h
    cases h
    rfl

theorem error_run_bind {α β σ : Type} {x : StateT σ Typing α} {f : α → StateT σ Typing β}
    {st : σ} {e : TypingStop} {s : Session} (h : (exec (x.run st) s).1 = .error e) :
    (exec ((x >>= f).run st) s).1 = .error e := by
  rw [StateT.run_bind]
  exact error_bind h

end Typing

/-- The call in the body asks for the specialization at the nested type. -/
theorem annotate_growing {s : Session} (hs : s.Growing) {env : TypeEnv} {ty : Ty}
    (henv : env.find? "x" = some ty) {e : TypingStop}
    (h : (exec (callees growing [("x", .tuple [ty])]) s).1 = .error e) :
    (exec (annotate callees env (.plain (.call "f" [.plain (.tuple [.plain (.var "x")])]))) s).1
      = .error e := by
  have hargs : annotateAll callees env [.plain (.tuple [.plain (.var "x")])]
      = pure [.typed (.tuple [.typed (.var "x") ty]) (.tuple [ty])] := by
    simp [annotateAll, annotate, Expr.plain, Expr.typed, Annotate.declaredVar?, henv, Typing.check,
      Typing.typesOf, Typing.typeOf]
  rw [Expr.plain, annotate, hargs, pure_bind]
  unfold Annotate.annotateCall
  rw [exec_get_bind, hs.typed]
  dsimp only
  rw [exec_get_bind, hs.source]
  have hbound (e : Expr) (hty : e.ty? = some (.tuple [ty])) :
      Annotate.bindExprs growing [e] = pure [("x", e)] := by
    obtain ⟨node, ty?⟩ := e
    cases hty
    rfl
  have hparams (e : Expr) (hty : e.ty? = some (.tuple [ty])) :
      Annotate.paramTypes [("x", e)] = pure [("x", .tuple [ty])] := by
    obtain ⟨node, ty?⟩ := e
    cases hty
    rfl
  rw [Typing.require, pure_bind, hbound _ rfl, pure_bind, hparams _ rfl, pure_bind]
  exact error_bind h

/-- Inference stops in its first pass, when it comes to the call. -/
theorem inferFn_growing {s : Session} (hs : s.Growing) {ty : Ty} {e : TypingStop}
    (h : (exec (callees growing [("x", .tuple [ty])]) s).1 = .error e) :
    (exec (inferFn callees growing [("x", ty)]) s).1 = .error e := by
  let start : InferState := ⟨.ofList [("x", ty)], none, 0⟩
  let call : Expr := .plain (.call "f" [.plain (.tuple [.plain (.var "x")])])
  have henv : start.env.find? "x" = some ty := by
    show ((∅ : TypeEnv).insert "x" ty).find? "x" = some ty
    rw [NameMap.find?_insert, if_pos rfl]
  have hannotated : (exec ((Infer.annotated callees call).run start) s).1 = .error e :=
    error_bind (annotate_growing hs henv h)
  have htyped : (exec ((Infer.typed callees call).run start) s).1 = .error e :=
    error_run_bind hannotated
  have hblock : (exec ((Infer.inferBlock callees growing.body).run start) s).1 = .error e := by
    show (exec ((Infer.inferBlock callees [.ret call]).run start) s).1 = .error e
    rw [Infer.inferBlock, Infer.inferStmt]
    exact error_run_bind (error_run_bind htyped)
  have hpass : (exec ((Infer.changes (Infer.inferBlock callees growing.body)).run start) s).1
      = .error e := by
    unfold Infer.changes
    rw [StateT.run_bind, StateT.run_get, pure_bind]
    exact error_run_bind hblock
  unfold inferFn
  refine error_bind ?_
  rw [Infer.maxPasses, Infer.settle]
  exact error_run_bind hpass

/-- A specialization that is built now fails as building it does. -/
theorem exec_specializeOnce_error {func : FnDecl} {params : List (String × Ty)} {key : Signature}
    {s : Session} {e : TypingStop} (hkey : func.signature params = key)
    (hnone : s.specialization? key = none) (hnew : key ∉ s.inProgress)
    (hbuild : (exec (buildTypedFn callees func params) (s.beginSpecialization key)).1 = .error e) :
    (exec (specializeOnce callees func params) s).1 = .error e := by
  subst hkey
  have hstep := specializeOnce_step callees func params s
  generalize exec (specializeOnce callees func params) s = run at hstep ⊢
  cases hstep with
  | found hfound =>
    rw [hnone] at hfound
    cases hfound
  | refused _ hactive => exact absurd hactive hnew
  | failed _ _ hfailed =>
    rw [hfailed] at hbuild
    exact hbuild
  | built _ _ hbuilt =>
    rw [hbuilt] at hbuild
    cases hbuild

/-- With any fuel, a function that calls itself on its argument in a tuple runs out of it: the type of
the call is new every time, so that nothing that is in progress is met again. -/
theorem specializeBound_growing (ty : Ty) (fuel n : Nat) {s : Session} (hs : s.Growing)
    (hactive : ∀ key ∈ s.inProgress, ∃ m < n, key = ("f", [ty.nest m])) :
    (exec (specializeBound fuel growing [("x", ty.nest n)]) s).1 = .error .outOfFuel := by
  induction fuel generalizing n s with
  | zero => rfl
  | succ fuel ih =>
    -- Only types that are nested less deeply are in progress.
    have hnew : ("f", [ty.nest n]) ∉ s.inProgress := by
      intro hmem
      obtain ⟨m, hmn, heq⟩ := hactive _ hmem
      simp only [Prod.mk.injEq, List.cons.injEq, true_and, and_true] at heq
      exact ty.nest_ne hmn heq.symm
    have hbegun : (s.beginSpecialization ("f", [ty.nest n])).Growing :=
      ⟨hs.source, hs.typed, hs.specializations⟩
    have hcall : (exec (specializeBound fuel growing [("x", .tuple [ty.nest n])])
        (s.beginSpecialization ("f", [ty.nest n]))).1 = .error .outOfFuel := by
      refine ih (n + 1) hbegun fun key hkey => ?_
      rcases List.mem_cons.1 hkey with rfl | hkey
      · exact ⟨n, Nat.lt_succ_self n, rfl⟩
      · obtain ⟨m, hmn, heq⟩ := hactive key hkey
        exact ⟨m, Nat.lt_succ_of_lt hmn, heq⟩
    have hbuild : (exec (buildTypedFn (specializeBound fuel) growing [("x", ty.nest n)])
        (s.beginSpecialization ("f", [ty.nest n]))).1 = .error .outOfFuel := by
      unfold buildTypedFn
      exact error_bind (inferFn_growing hbegun hcall)
    have hnone : s.specialization? ("f", [ty.nest n]) = none := by
      rw [Session.specialization?, hs.specializations]
      rfl
    exact exec_specializeOnce_error rfl hnone hnew hbuild

/-- `fn f(x): return f((x,))` is not specialized for any type, neither with a function nor with an
error: however much fuel there is, it runs out. -/
theorem specialize_growing (ty : Ty) (fuel : Nat) :
    (exec (specialize fuel "f" [ty]) (.ofSources none [growing])).1 = .error .outOfFuel := by
  have hgrowing : (Session.ofSources none [growing]).Growing := ⟨rfl, rfl, rfl⟩
  have hbind : bindArgs "f" growing.params growing.nonlocals [ty] [] = .ok [("x", ty)] := rfl
  unfold specialize Annotate.specializeNamed
  rw [exec_get_bind, hgrowing.source, Typing.require, pure_bind, hbind, Except.mapError,
    Typing.check, pure_bind]
  exact specializeBound_growing ty fuel 0 hgrowing fun _ h => (List.not_mem_nil h).elim

end ArrayLang
