import ArrayLang.Typing.Error
import Mathlib.Data.List.Forall2

/-!
# What typing computations keep

A computation that types code may change the session, also when it fails. `Typing.Meets` says that
it keeps an invariant of sessions whatever happens, and that what it returns satisfies a
postcondition. `Typing.MeetsFrom` says the same of a walk that carries a state of its own. Each way
of building a computation has one rule.
-/

/-- A property of the second list only. -/
theorem List.forall_of_forall₂_right {α β : Type} {Q : β → Prop} {l : List α} {l' : List β}
    (h : List.Forall₂ (fun _ b => Q b) l l') : ∀ b ∈ l', Q b := by
  induction h with
  | nil => exact fun _ h => (List.not_mem_nil h).elim
  | cons h _ ih => exact List.forall_mem_cons.2 ⟨h, ih⟩

namespace ArrayLang.Typing

variable {I : Session → Prop} {α β σ : Type}

/-- The outcome of a computation and the session it leaves behind. -/
def exec (x : Typing α) (s : Session) : Except TypingStop α × Session :=
  x.run.run s

theorem exec_bind (x : Typing α) (f : α → Typing β) (s : Session) :
    exec (x >>= f) s = match exec x s with
      | (.ok a, s') => exec (f a) s'
      | (.error e, s') => (.error e, s') := by
  show (ExceptT.bindCont f (x.run.run s).1).run (x.run.run s).2 = _
  unfold exec
  cases h : x.run.run s with
  | mk r t => cases r <;> rfl

theorem exec_bind_eq_ok {x : Typing α} {f : α → Typing β} {s u : Session} {b : β}
    (h : exec (x >>= f) s = (.ok b, u)) :
    ∃ a t, exec x s = (.ok a, t) ∧ exec (f a) t = (.ok b, u) := by
  rw [exec_bind] at h
  cases hx : exec x s with
  | mk r t =>
    rw [hx] at h
    cases r with
    | error e => cases h
    | ok a => exact ⟨a, t, rfl, h⟩

theorem exec_get_bind (f : Session → Typing α) (s : Session) :
    exec (get >>= f) s = exec (f s) s :=
  rfl

theorem exec_modify_bind (g : Session → Session) (f : PUnit → Typing α) (s : Session) :
    exec (modify g >>= f) s = exec (f ⟨⟩) (g s) :=
  rfl

theorem exec_attempt_bind (x : Typing α) (f : Except TypingStop α → Typing β) (s : Session) :
    exec (attempt x >>= f) s = exec (f (exec x s).1) (exec x s).2 :=
  rfl

/-- From a session in `I` the computation ends in `I`, and what it returns satisfies `Q`. -/
def Meets (I : Session → Prop) (x : Typing α) (Q : α → Prop) : Prop :=
  ∀ s, I s → I (exec x s).2 ∧ ∀ a, (exec x s).1 = .ok a → Q a

namespace Meets

theorem bind {x : Typing α} {f : α → Typing β} {P : α → Prop} {Q : β → Prop}
    (hx : Meets I x P) (hf : ∀ a, P a → Meets I (f a) Q) : Meets I (x >>= f) Q := by
  intro s hs
  have ⟨hs', ha⟩ := hx s hs
  rw [exec_bind]
  cases h : exec x s with
  | mk r t =>
    rw [h] at hs' ha
    cases r with
    | error e => exact ⟨hs', fun _ h => by cases h⟩
    | ok a => exact hf a (ha a rfl) t hs'

theorem mono {x : Typing α} {P Q : α → Prop} (hx : Meets I x P) (h : ∀ a, P a → Q a) :
    Meets I x Q :=
  fun s hs => ⟨(hx s hs).1, fun a ha => h a ((hx s hs).2 a ha)⟩

theorem and {x : Typing α} {P Q : α → Prop} (hp : Meets I x P) (hq : Meets I x Q) :
    Meets I x fun a => P a ∧ Q a :=
  fun s hs => ⟨(hp s hs).1, fun a ha => ⟨(hp s hs).2 a ha, (hq s hs).2 a ha⟩⟩

/-- What holds anyway also holds under a condition. -/
theorem guard {x : Typing α} {D : Prop} {Q : α → Prop} (h : Meets I x Q) :
    Meets I x fun a => D → Q a :=
  h.mono fun _ ha _ => ha

theorem pure {a : α} {Q : α → Prop} (h : Q a) : Meets I (Pure.pure a : Typing α) Q := by
  intro s hs
  refine ⟨hs, fun b hb => ?_⟩
  cases hb
  exact h

theorem throw (e : TypingStop) {Q : α → Prop} : Meets I (throw e : Typing α) Q :=
  fun _ hs => ⟨hs, fun _ h => by cases h⟩

theorem fail (cause : TypingError) {Q : α → Prop} : Meets I (fail cause : Typing α) Q :=
  throw _

theorem check {r : Except TypingError α} {Q : α → Prop} (h : ∀ a, r = .ok a → Q a) :
    Meets I (check r) Q := by
  cases r with
  | ok a => exact pure (h a rfl)
  | error cause => exact fail cause

theorem check_any (r : Except TypingError α) : Meets I (Typing.check r) fun _ => True :=
  check fun _ _ => trivial

theorem require {cause : TypingError} {a? : Option α} {Q : α → Prop}
    (h : ∀ a, a? = some a → Q a) : Meets I (require cause a?) Q := by
  cases a? with
  | some a => exact pure (h a rfl)
  | none => exact fail cause

theorem require_any (cause : TypingError) (a? : Option α) :
    Meets I (Typing.require cause a?) fun _ => True :=
  require fun _ _ => trivial

theorem get : Meets I (get : Typing Session) I := by
  intro s hs
  refine ⟨hs, fun t ht => ?_⟩
  cases ht
  exact hs

theorem modify {f : Session → Session} (h : ∀ s, I s → I (f s)) :
    Meets I (modify f : Typing PUnit) fun _ => True :=
  fun s hs => ⟨h s hs, fun _ _ => trivial⟩

theorem attempt {x : Typing α} {P : α → Prop} (hx : Meets I x P) :
    Meets I (attempt x) fun r => ∀ a, r = .ok a → P a := by
  intro s hs
  refine ⟨(hx s hs).1, fun r hr => ?_⟩
  cases hr
  exact (hx s hs).2

theorem ite {c : Prop} [Decidable c] {x y : Typing α} {Q : α → Prop} (hx : c → Meets I x Q)
    (hy : ¬c → Meets I y Q) : Meets I (if c then x else y) Q := by
  split
  · exact hx ‹_›
  · exact hy ‹_›

theorem mapM {f : α → Typing β} {Q : α → β → Prop} {l : List α}
    (h : ∀ a ∈ l, Meets I (f a) (Q a)) : Meets I (l.mapM f) (List.Forall₂ Q l) := by
  induction l with
  | nil => exact pure .nil
  | cons a l ih =>
    rw [List.mapM_cons]
    refine bind (h a List.mem_cons_self) fun b hb => ?_
    refine bind (ih fun c hc => h c (List.mem_cons_of_mem _ hc)) fun bs hbs => ?_
    exact pure (.cons hb hbs)

/-- What each step makes sure of holds of all results. -/
theorem mapM_forall {f : α → Typing β} {Q : β → Prop} {l : List α}
    (h : ∀ a ∈ l, Meets I (f a) Q) : Meets I (l.mapM f) fun bs => ∀ b ∈ bs, Q b := by
  refine (mapM h).mono fun bs hbs => ?_
  exact List.forall_of_forall₂_right hbs

theorem typeOf (e : Expr) : Meets I (typeOf e) fun ty => e.ty? = some ty := by
  unfold Typing.typeOf
  split
  · exact pure ‹_›
  · exact throw _

theorem typesOf (es : List Expr) :
    Meets I (typesOf es) (List.Forall₂ (fun e ty => e.ty? = some ty) es) :=
  mapM fun e _ => typeOf e

end Meets

/-- No session is excluded. -/
abbrev anySession : Session → Prop :=
  fun _ => True

theorem Meets.any (x : Typing α) : Meets anySession x fun _ => True :=
  fun _ _ => ⟨trivial, fun _ _ => trivial⟩

/-- What a computation returns is what some run of it returns. -/
theorem Meets.returned (x : Typing α) :
    Meets anySession x fun a => ∃ s t, exec x s = (.ok a, t) := by
  intro s _
  refine ⟨trivial, fun a ha => ⟨s, (exec x s).2, ?_⟩⟩
  rw [← ha]

/-! ## Walks with a state -/

/-- From a state in `P` the walk keeps `I`, and what it returns satisfies `Q` in its last state. -/
def MeetsFrom (I : Session → Prop) (P : σ → Prop) (x : StateT σ Typing α) (Q : α → σ → Prop) :
    Prop :=
  ∀ st, P st → Meets I (x.run st) fun r => Q r.1 r.2

namespace MeetsFrom

variable {P : σ → Prop}

theorem bind {x : StateT σ Typing α} {f : α → StateT σ Typing β} {Q : α → σ → Prop}
    {R : β → σ → Prop} (hx : MeetsFrom I P x Q) (hf : ∀ a, MeetsFrom I (Q a) (f a) R) :
    MeetsFrom I P (x >>= f) R := by
  intro st hst
  rw [StateT.run_bind]
  exact Meets.bind (hx st hst) fun r hr => hf r.1 r.2 hr

theorem mono {P' : σ → Prop} {x : StateT σ Typing α} {Q Q' : α → σ → Prop}
    (hx : MeetsFrom I P x Q) (hP : ∀ st, P' st → P st) (hQ : ∀ a st, Q a st → Q' a st) :
    MeetsFrom I P' x Q' :=
  fun st hst => (hx st (hP st hst)).mono fun r hr => hQ r.1 r.2 hr

theorem pure {a : α} {Q : α → σ → Prop} (h : ∀ st, P st → Q a st) :
    MeetsFrom I P (Pure.pure a) Q :=
  fun st hst => Meets.pure (h st hst)

/-- A computation without a state of its own, made a step of a walk. -/
theorem lift {x : Typing α} {Q : α → Prop} (hx : Meets I x Q) :
    MeetsFrom I P (liftM x : StateT σ Typing α) fun a st => P st ∧ Q a := by
  intro st hst
  show Meets I (x >>= fun a => Pure.pure (a, st)) _
  exact hx.bind fun a ha => .pure ⟨hst, ha⟩

theorem get : MeetsFrom I P (get : StateT σ Typing σ) fun a st => a = st ∧ P st :=
  fun _ hst => Meets.pure ⟨rfl, hst⟩

theorem modify {f : σ → σ} {Q : PUnit → σ → Prop} (h : ∀ st, P st → Q ⟨⟩ (f st)) :
    MeetsFrom I P (modify f : StateT σ Typing PUnit) Q :=
  fun st hst => Meets.pure (h st hst)

theorem ite {c : Prop} [Decidable c] {x y : StateT σ Typing α} {Q : α → σ → Prop}
    (hx : c → MeetsFrom I P x Q) (hy : ¬c → MeetsFrom I P y Q) :
    MeetsFrom I P (if c then x else y) Q := by
  split
  · exact hx ‹_›
  · exact hy ‹_›

end MeetsFrom
end ArrayLang.Typing
