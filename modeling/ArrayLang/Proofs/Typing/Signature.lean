import ArrayLang.Proofs.Reachable
import ArrayLang.Proofs.Ty.Text

/-!
# Specializations by their signatures

A specialization is recorded for its signature under the text of the signature. Whatever is
registered, specialized or run afterwards, specializing the same signature gives the same function,
as long as no other signature with the same text is specialized. The texts of signatures of plain
types tell them apart; those of structures need not.
-/

namespace ArrayLang

open Typing

/-- The name under which the specialization of a signature is recorded. -/
def Signature.text (key : Signature) : String :=
  specializedName key.1 key.2

/-- The signature of a function for its bound parameters. -/
def FnDecl.signature (func : FnDecl) (params : List (String × Ty)) : Signature :=
  (func.name, params.map (·.2))

namespace Session

/-- The signatures that were specialized. -/
def signatures (s : Session) : List Signature :=
  s.specializations.map (·.1)

/-- Another signature with the same text was specialized. -/
def Rivaled (s : Session) (key : Signature) : Prop :=
  ∃ other ∈ s.signatures, other ≠ key ∧ other.text = key.text

/-- Specializations are recorded under the texts of their signatures, and each specialized function
was made for a signature that has its name as text. -/
structure Filed (s : Session) : Prop where
  names : ∀ p ∈ s.specializations, p.2 = p.1.text
  made {name : String} {func : TypedFn} (h : s.typed.find? name = some func) :
    ∃ key ∈ s.signatures, key.text = name ∧ func.inputTypes = key.2

/-- From `s` to `t` no signature is forgotten, and the function of a signature stays unless the
signature has a rival. -/
structure Develops (s t : Session) : Prop where
  filed : t.Filed
  signatures : ∀ key ∈ s.signatures, key ∈ t.signatures
  kept {key : Signature} {func : TypedFn} (h : s.specialization? key = some func) :
    t.specialization? key = some func ∨ t.Rivaled key

variable {r s t u : Session} {key : Signature} {func : TypedFn}

theorem filed_new (converter? : Option Converter) : (Session.new converter?).Filed where
  names _ h := (List.not_mem_nil h).elim
  made h := by cases h

theorem specialization?_eq_some (h : s.specialization? key = some func) :
    ∃ name, (key, name) ∈ s.specializations ∧ s.specializations.lookup key = some name
      ∧ s.typed.find? name = some func := by
  obtain ⟨name, hlookup, hfind⟩ := Option.bind_eq_some_iff.1 h
  obtain ⟨l₁, l₂, heq, -⟩ := List.lookup_eq_some_iff.1 hlookup
  exact ⟨name, by rw [heq]; simp, hlookup, hfind⟩

/-- A recorded function has the types of its signature, unless the signature has a rival. -/
theorem Filed.inputTypes (hs : s.Filed) (h : s.specialization? key = some func)
    (hapart : ¬s.Rivaled key) : func.inputTypes = key.2 := by
  obtain ⟨name, hmem, -, hfind⟩ := specialization?_eq_some h
  obtain ⟨other, hother, htext, htypes⟩ := hs.made hfind
  by_cases heq : other = key
  · rw [htypes, heq]
  · exact absurd ⟨other, hother, heq, htext.trans (hs.names _ hmem)⟩ hapart

/-! ## Steps -/

theorem Develops.refl (hs : s.Filed) : s.Develops s :=
  ⟨hs, fun _ h => h, .inl⟩

theorem Rivaled.mono (h : s.Rivaled key) (hst : s.Develops t) : t.Rivaled key := by
  obtain ⟨other, hother, hne, htext⟩ := h
  exact ⟨other, hst.signatures other hother, hne, htext⟩

theorem Develops.trans (hrs : r.Develops s) (hst : s.Develops t) : r.Develops t where
  filed := hst.filed
  signatures key h := hst.signatures key (hrs.signatures key h)
  kept h := by
    rcases hrs.kept h with hkept | hrival
    · exact hst.kept hkept
    · exact .inr (hrival.mono hst)

/-- A step that changes neither the specializations nor the specialized functions. -/
theorem Develops.of_eq (h : s.Develops t) (htyped : u.typed = t.typed)
    (hspec : u.specializations = t.specializations) : s.Develops u := by
  obtain ⟨sources, typed, specializations, _, _, _, _, _⟩ := u
  cases htyped
  cases hspec
  exact ⟨⟨h.filed.names, h.filed.made⟩, h.signatures, h.kept⟩

/-- Recording a function for a signature that had none. -/
theorem Develops.recordSpecialization (h : s.Develops t) (hnew : s.specialization? key = none)
    (hname : func.name = key.text) (htypes : func.inputTypes = key.2) :
    s.Develops (t.recordSpecialization key func) where
  filed := by
    refine ⟨fun p hp => ?_, fun {name found} hfind => ?_⟩
    · rcases List.mem_cons.1 hp with rfl | hp
      · exact hname
      · exact h.filed.names p hp
    · change (t.typed.insert func.name func).find? name = some found at hfind
      rw [NameMap.find?_insert] at hfind
      by_cases heq : name = func.name
      · rw [if_pos heq, Option.some_inj] at hfind
        exact ⟨key, List.mem_cons_self, (heq.trans hname).symm, hfind ▸ htypes⟩
      · rw [if_neg heq] at hfind
        obtain ⟨other, hother, hmade⟩ := h.filed.made hfind
        exact ⟨other, List.mem_cons_of_mem _ hother, hmade⟩
  signatures other hother := List.mem_cons_of_mem _ (h.signatures other hother)
  kept {other found} hfound := by
    have hne : other ≠ key := by
      rintro rfl
      rw [hnew] at hfound
      cases hfound
    rcases h.kept hfound with hkept | ⟨rival, hrival, hrivals⟩
    · obtain ⟨name, hmem, hlookup, hfind⟩ := specialization?_eq_some hkept
      by_cases heq : name = func.name
      -- The new function takes the name of an old one only if the texts of their signatures agree.
      · refine .inr ⟨key, List.mem_cons_self, hne.symm, ?_⟩
        rw [← hname, ← heq]
        exact h.filed.names _ hmem
      · left
        refine Option.bind_eq_some_iff.2 ⟨name, ?_, ?_⟩
        · show List.lookup other ((key, func.name) :: t.specializations) = some name
          rw [List.lookup_cons, beq_false_of_ne hne]
          exact hlookup
        · show (t.typed.insert func.name func).find? name = some found
          rw [NameMap.find?_insert, if_neg heq, hfind]
    · exact .inr ⟨rival, List.mem_cons_of_mem _ hrival, hrivals⟩

theorem Develops.register (decl : FnDecl) (h : s.Develops t) : s.Develops (t.register decl).2 :=
  h.of_eq (typed_register t decl) (specializations_register t decl)

theorem Develops.convert (id : Nat) (name : String) (captured : List Value) (h : s.Develops t) :
    s.Develops (t.convert id name captured).2 := by
  unfold Session.convert
  split
  · exact h
  · split
    · exact h
    · dsimp only
      split
      · exact h.of_eq rfl rfl
      · exact h.of_eq (typed_register ⟨_, _, _, _, _, _, _, _⟩ _)
          (specializations_register ⟨_, _, _, _, _, _, _, _⟩ _)

theorem develops_runInvariant (s : Session) : Interpreter.RunInvariant s.Develops where
  register decl hs := hs.register decl
  convert id name captured hs := hs.convert id name captured

end Session

/-! ## Specializing -/

theorem buildTypedFn_signature {q : String → Prop} {I : Session → Prop} (hI : SourceInvariant q I)
    {specialize : Specializer} (hspec : specialize.Keeps q I) {func : FnDecl}
    {params : List (String × Ty)} (hfunc : func.Names q) (hparams : ∀ p ∈ params, q p.1) :
    Meets I (buildTypedFn specialize func params) fun typed =>
      typed.name = (func.signature params).text
        ∧ typed.inputTypes = (func.signature params).2 := by
  unfold buildTypedFn
  refine (inferFn_meets hI hspec hfunc hparams).bind fun inference hinference => ?_
  refine (lowerFn_meets hI hspec hfunc hinference.1 hinference.2).bind fun lowered _ => ?_
  exact .pure ⟨rfl, rfl⟩

theorem Typing.Meets.exec_snd {I : Session → Prop} {α : Type} {x : Typing α} {Q : α → Prop}
    {s : Session} (h : Meets I x Q) (hs : I s) : I (exec x s).2 :=
  (h s hs).1

/-- The ways in which a specialization ends: a recorded one is found, a signature in progress is refused,
and otherwise the function is built, which fails or gives the function that is recorded. -/
inductive SpecializationStep (callees : Specializer) (func : FnDecl) (params : List (String × Ty))
    (s : Session) : Except TypingStop TypedFn × Session → Prop
  | found {typed : TypedFn} (hfound : s.specialization? (func.signature params) = some typed) :
    SpecializationStep callees func params s (.ok typed, s)
  | refused (hnone : s.specialization? (func.signature params) = none)
    (hactive : func.signature params ∈ s.inProgress) :
    SpecializationStep callees func params s (.error (.error (.recursive func.name)), s)
  | failed {stop : TypingStop} {t : Session}
    (hnone : s.specialization? (func.signature params) = none)
    (hnew : func.signature params ∉ s.inProgress)
    (hbuild : exec (buildTypedFn callees func params)
      (s.beginSpecialization (func.signature params)) = (.error stop, t)) :
    SpecializationStep callees func params s
      (.error stop, t.endSpecialization (func.signature params))
  | built {typed : TypedFn} {t : Session}
    (hnone : s.specialization? (func.signature params) = none)
    (hnew : func.signature params ∉ s.inProgress)
    (hbuild : exec (buildTypedFn callees func params)
      (s.beginSpecialization (func.signature params)) = (.ok typed, t)) :
    SpecializationStep callees func params s
      (.ok typed, (t.endSpecialization (func.signature params)).recordSpecialization
        (func.signature params) typed)

theorem specializeOnce_step (callees : Specializer) (func : FnDecl) (params : List (String × Ty))
    (s : Session) :
    SpecializationStep callees func params s (exec (specializeOnce callees func params) s) := by
  rw [exec_specializeOnce]
  dsimp only
  rw [← FnDecl.signature]
  cases hfound : s.specialization? (func.signature params) with
  | some typed => exact .found hfound
  | none =>
    dsimp only
    split
    · rename_i hcontains
      exact .refused hfound (by simpa using hcontains)
    · rename_i hcontains
      have hnew : func.signature params ∉ s.inProgress := by simpa using hcontains
      cases hbuild : exec (buildTypedFn callees func params)
        (s.beginSpecialization (func.signature params)) with
      | mk r t =>
        cases r with
        | error stop => exact .failed hfound hnew hbuild
        | ok typed => exact .built hfound hnew hbuild

/-- A signature that has a function is not specialized again. -/
theorem exec_specializeBound_of_recorded {s : Session} {func : FnDecl}
    {params : List (String × Ty)} {typed : TypedFn}
    (h : s.specialization? (func.signature params) = some typed) (fuel : Nat) :
    exec (specializeBound (fuel + 1) func params) s = (.ok typed, s) := by
  rw [FnDecl.signature] at h
  rw [specializeBound, exec_specializeOnce]
  dsimp only
  rw [h]

/-- A relation from a session to what specializing makes of it, which is kept by every step. A signature
for which a function is recorded had none at the start. -/
structure Session.Evolution (J : Session → Session → Prop) : Prop where
  refl {s t : Session} (h : J s t) : J t t
  trans {r s t : Session} (hrs : J r s) (hst : J s t) : J r t
  register {s t : Session} (decl : FnDecl) (h : J s t) : J s (t.register decl).2
  beginSpecialization {s t : Session} (key : Signature) (h : J s t) : J s (t.beginSpecialization key)
  endSpecialization {s t : Session} (key : Signature) (h : J s t) : J s (t.endSpecialization key)
  recordSpecialization {s t : Session} {key : Signature} {func : TypedFn} (h : J s t)
    (hnew : s.specialization? key = none) (hname : func.name = key.text)
    (htypes : func.inputTypes = key.2) : J s (t.recordSpecialization key func)

namespace Session.Evolution

variable {J : Session → Session → Prop}

theorem sourceInvariant (hJ : Evolution J) (s : Session) : SourceInvariant (fun _ => True) (J s) where
  sources _ _ := fun _ _ => trivial
  typed _ _ hq := absurd (hq "." trivial) (by decide)
  register hs _ := hJ.register _ hs

/-- Specializing only leads to what its steps lead to. The induction is on the fuel. A signature that is
specialized had no function before, and so what follows is related to the session at that point. -/
theorem specializeBound_keeps (hJ : Evolution J) (fuel : Nat) (s : Session) :
    Specializer.Keeps (fun _ => True) (J s) (specializeBound fuel) := by
  induction fuel generalizing s with
  | zero => exact fun _ _ _ _ => .throw _
  | succ fuel ih =>
    intro func params hfunc hparams t hst
    refine ⟨?_, fun _ _ hq => absurd (hq "." trivial) (by decide)⟩
    cases hnew : t.specialization? (func.signature params) with
    | some typed =>
      rw [exec_specializeBound_of_recorded hnew]
      exact hst
    | none =>
      refine hJ.trans hst (Meets.exec_snd (Q := fun _ => True) ?_ (hJ.refl hst))
      rw [specializeBound]
      unfold specializeOnce
      refine Meets.get.bind fun u hu => ?_
      dsimp only
      split
      · exact .pure trivial
      refine Meets.get.bind fun _ _ => .ite (fun _ => .fail _) fun _ => ?_
      refine (Meets.modify fun u hu => hJ.beginSpecialization _ hu).bind fun _ _ => ?_
      have hbuild := buildTypedFn_signature (hJ.sourceInvariant t) (ih t) hfunc hparams
      refine (Meets.attempt hbuild).bind fun built hbuilt => ?_
      refine (Meets.modify fun u hu => hJ.endSpecialization _ hu).bind fun _ _ => ?_
      cases built with
      | error stop => exact .throw _
      | ok typed =>
        obtain ⟨hname, htypes⟩ := hbuilt typed rfl
        refine (Meets.modify fun u hu => ?_).bind fun _ _ => .pure trivial
        exact hJ.recordSpecialization hu hnew hname htypes

end Session.Evolution

/-- Specializing keeps the functions of all signatures that have no rival: recording a function changes
the function of a signature with the same text at most. -/
theorem Session.develops_evolution : Evolution Develops where
  refl h := .refl h.filed
  trans := .trans
  register decl h := h.register decl
  beginSpecialization _ h := h.of_eq rfl rfl
  endSpecialization _ h := h.of_eq rfl rfl
  recordSpecialization h := h.recordSpecialization

theorem Session.specialization?_recordSpecialization (s : Session) (key : Signature)
    (func : TypedFn) : (s.recordSpecialization key func).specialization? key = some func := by
  refine Option.bind_eq_some_iff.2 ⟨func.name, ?_, ?_⟩
  · show List.lookup key ((key, func.name) :: s.specializations) = some func.name
    rw [List.lookup_cons, beq_self_eq_true]
  · show (s.typed.insert func.name func).find? func.name = some func
    rw [NameMap.find?_insert, if_pos rfl]

/-- What specializing gives is the function of its signature from then on. -/
theorem specializeBound_recorded {fuel : Nat} {func : FnDecl} {params : List (String × Ty)}
    {typed : TypedFn} {s t : Session}
    (h : exec (specializeBound fuel func params) s = (.ok typed, t)) :
    t.specialization? (func.signature params) = some typed := by
  cases fuel with
  | zero => cases h
  | succ fuel =>
    have hstep := specializeOnce_step (specializeBound fuel) func params s
    rw [← specializeBound, h] at hstep
    cases hstep with
    | found hfound => exact hfound
    | built hnone hnew hbuild => exact Session.specialization?_recordSpecialization _ _ _

/-! ## Specializing again -/

namespace Session

/-- The second session arises from the first by registering, converting, specializing and running
code, each also when it fails. -/
inductive Later (s : Session) : Session → Prop
  | refl : Later s s
  | register {t : Session} (h : Later s t) (decl : FnDecl) : Later s (t.register decl).2
  | hostFunction {t : Session} (h : Later s t) (name : String) (captured : List Value) :
    Later s (t.hostFunction name captured).2
  | convert {t : Session} (h : Later s t) (id : Nat) (name : String) (captured : List Value) :
    Later s (t.convert id name captured).2
  | specialize {t : Session} (h : Later s t) (fuel : Nat) (name : String) (types : List Ty) :
    Later s (exec (specialize fuel name types) t).2
  | specializeClosure {t : Session} (h : Later s t) (fuel : Nat) (func : String)
    (captured types : List Ty) :
    Later s (exec (Annotate.specializeClosure (specializeBound fuel) func captured types) t).2
  | specializeBound {t : Session} (h : Later s t) (fuel : Nat) (func : FnDecl)
    (params : List (String × Ty)) : Later s (exec (specializeBound fuel func params) t).2
  | inferFn {t : Session} (h : Later s t) (fuel : Nat) (func : FnDecl)
    (params : List (String × Ty)) :
    Later s (exec (inferFn (ArrayLang.specializeBound fuel) func params) t).2
  | call {t : Session} (h : Later s t) (store : Store) (fuel : Nat) (target : Value)
    (args : List Value) :
    Later s (Run.exec (Interpreter.call fuel target args) ⟨store, t⟩).2.context
  | callSource {t : Session} (h : Later s t) (store : Store) (fuel : Nat) (name : String)
    (args : List Value) :
    Later s (Run.exec (Interpreter.callSource fuel name args) ⟨store, t⟩).2.context
  | callTyped {t : Session} (h : Later s t) (store : Store) (fuel : Nat) (func : TypedFn)
    (args : List Value) :
    Later s (Run.exec (Interpreter.callTyped fuel func args) ⟨store, t⟩).2.context

/-- Later sessions keep the functions of all signatures that have no rival. -/
theorem Later.develops {s t : Session} (hs : s.Filed) (h : s.Later t) : s.Develops t := by
  have hI := develops_evolution.sourceInvariant s
  have hJ := develops_runInvariant s
  have hspec (fuel : Nat) := develops_evolution.specializeBound_keeps fuel s
  induction h with
  | refl => exact .refl hs
  | register h decl ih => exact ih.register decl
  | hostFunction h name captured ih => exact ih.of_eq rfl rfl
  | convert h id name captured ih => exact ih.convert id name captured
  | specialize h fuel name types ih =>
    exact (Annotate.specializeNamed_meets hI (hspec fuel) name types).exec_snd ih
  | specializeClosure h fuel func captured types ih =>
    exact (Annotate.specializeClosure_meets hI (hspec fuel) func captured types).exec_snd ih
  | specializeBound h fuel func params ih =>
    exact (hspec fuel func params (fun _ _ => trivial) fun _ _ => trivial).exec_snd ih
  | inferFn h fuel func params ih =>
    refine (inferFn_meets hI (hspec fuel) ?_ ?_).exec_snd ih
    · exact fun _ _ => trivial
    · exact fun _ _ => trivial
  | call h store fuel target args ih =>
    exact Interpreter.call_keeps hJ fuel target args ⟨store, _⟩ ih
  | callSource h store fuel name args ih =>
    exact Interpreter.callSource_keeps hJ fuel name args ⟨store, _⟩ ih
  | callTyped h store fuel func args ih =>
    exact Interpreter.callTyped_keeps hJ fuel func args ⟨store, _⟩ ih

theorem filed_of_later {converter? : Option Converter} {s : Session}
    (h : (Session.new converter?).Later s) : s.Filed :=
  (h.develops (filed_new converter?)).filed

/-- Specializing a signature again, whatever happened in between, gives the same function, which has
the types that were asked for, if no other specialized signature has the same text. -/
theorem specializeBound_again {converter? : Option Converter} {s t u : Session}
    (hs : (Session.new converter?).Later s) {fuel : Nat} {func func' : FnDecl}
    {params params' : List (String × Ty)} {typed : TypedFn}
    (h : exec (specializeBound fuel func params) s = (.ok typed, t)) (htu : t.Later u)
    (hsame : func'.signature params' = func.signature params)
    (hapart : ¬u.Rivaled (func.signature params)) (fuel' : Nat) :
    exec (specializeBound (fuel' + 1) func' params') u = (.ok typed, u)
      ∧ typed.inputTypes = params.map (·.2) := by
  have htfiled : t.Filed := by
    have hstep := filed_of_later (hs.specializeBound fuel func params)
    rw [h] at hstep
    exact hstep
  have hu := htu.develops htfiled
  rcases hu.kept (specializeBound_recorded h) with hkept | hrival
  · refine ⟨exec_specializeBound_of_recorded (hsame ▸ hkept) fuel', ?_⟩
    exact hu.filed.inputTypes hkept hapart
  · exact absurd hrival hapart

/-- A signature whose text determines it: there is no bracket in the name, and no structure and no
closure among the types. -/
def PlainSignature (key : Signature) : Prop :=
  '[' ∉ key.1.toList ∧ Ty.AllPlain key.2

theorem not_rivaled_of_plain {s : Session} {key : Signature} (hkey : PlainSignature key)
    (hs : ∀ other ∈ s.signatures, PlainSignature other) : ¬s.Rivaled key := by
  rintro ⟨other, hother, hne, htext⟩
  have hplain := hs other hother
  obtain ⟨hname, htypes⟩ := specializedName_inj hplain.1 hkey.1 hplain.2 hkey.2 htext
  exact hne (Prod.ext hname htypes)

/-- Among plain signatures, specializing one again always gives the same function. -/
theorem specializeBound_again_of_plain {converter? : Option Converter} {s t u : Session}
    (hs : (Session.new converter?).Later s) {fuel : Nat} {func func' : FnDecl}
    {params params' : List (String × Ty)} {typed : TypedFn}
    (h : exec (specializeBound fuel func params) s = (.ok typed, t)) (htu : t.Later u)
    (hsame : func'.signature params' = func.signature params)
    (hkey : PlainSignature (func.signature params))
    (hu : ∀ other ∈ u.signatures, PlainSignature other) (fuel' : Nat) :
    exec (specializeBound (fuel' + 1) func' params') u = (.ok typed, u)
      ∧ typed.inputTypes = params.map (·.2) :=
  specializeBound_again hs h htu hsame (not_rivaled_of_plain hkey hu) fuel'

/-- A session with `f(p) = p.x`. -/
def projecting : Session :=
  .ofSources none [⟨"f", ⟨["p"], [], none⟩, [], [.ret (.plain (.attr (.plain (.var "p")) "x"))]⟩]

/-- A structure `P` with one field `x`. -/
def boxOf (elt : ElemType) : Ty :=
  .struct "P" [("x", .scalar elt)]

/-- Structures of one name are rivals: once `f` was specialized for integers and then for floats in
`P`, specializing it for integers gives the function for floats. -/
theorem specialize_rival :
    let ints := exec (specialize 1 "f" [boxOf .int64]) projecting
    let floats := exec (specialize 1 "f" [boxOf .float64]) ints.2
    let again := exec (specialize 1 "f" [boxOf .int64]) floats.2
    ints.1.map (·.inputTypes) = .ok [boxOf .int64]
      ∧ again.1.map (·.inputTypes) = .ok [boxOf .float64] := by
  decide

end Session
end ArrayLang
