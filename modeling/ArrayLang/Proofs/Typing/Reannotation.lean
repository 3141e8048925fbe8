import ArrayLang.Proofs.Typing.Congruence
import ArrayLang.Proofs.Typing.Signature

/-!
# Annotating again

Typing code only adds to a session. What it adds may still change what other code means: a name may come
to stand for a specialized function where it stood for source code before, and a specialization may take
the name of another one. Neither happens when no two specializations share a name and no name of source
code has a bracket. An expression that was annotated on the way to such a session is annotated there in
the same way, and nothing is added to the session.

## Main results

- `Session.Grows`: what typing code leaves as it was.
- `Session.Later.reserves`: when no two specializations of a session that arises from a new one share a
  name.
- `annotate_repeats`: an expression that was annotated before is annotated again in the same way.
-/

namespace ArrayLang

open Typing

/-! ## Names of maps -/

namespace NameMap

variable {α : Type} {m m' : NameMap α} {name : String} {value : α}

theorem contains_of_find? (h : m.find? name = some value) : m.contains name = true := by
  rw [contains, h, Option.isSome_some]

theorem mem_names_of_find? (h : m.find? name = some value) : name ∈ m.names :=
  List.mem_map_of_mem (mem_entries_of_find? h)

theorem Included.contains (h : m.Included m') (hname : m.contains name = true) :
    m'.contains name = true := by
  obtain ⟨value, hvalue⟩ := Option.isSome_iff_exists.1 hname
  exact contains_of_find? (h name value hvalue)

end NameMap

/-! ## Growing sessions -/

namespace Session

/-- Each signature was specialized under one name, and no two signatures under the same. -/
def NamedApart (t : Session) : Prop :=
  ∀ p ∈ t.specializations, ∀ p' ∈ t.specializations, p.1 = p'.1 ↔ p.2 = p'.2

instance (t : Session) : Decidable t.NamedApart :=
  inferInstanceAs (Decidable (∀ p ∈ t.specializations, ∀ p' ∈ t.specializations,
    p.1 = p'.1 ↔ p.2 = p'.2))

/-- The names of the specializations of `t` are reserved in `s`: a function that has such a name is that
specialization. -/
def Reserves (s t : Session) : Prop :=
  ∀ p ∈ t.specializations, s.typed.contains p.2 = true → p ∈ s.specializations

instance (s t : Session) : Decidable (s.Reserves t) :=
  inferInstanceAs (Decidable (∀ p ∈ t.specializations, s.typed.contains p.2 = true →
    p ∈ s.specializations))

theorem NamedApart.mono {s t : Session} (ht : t.NamedApart)
    (h : s.specializations ⊆ t.specializations) : s.NamedApart :=
  fun p hp p' hp' => ht p (h hp) p' (h hp')

/-- The function of a signature is the one under the name for which it was specialized. -/
theorem NamedApart.specialization?_of_mem {s : Session} (hs : s.NamedApart) {key : Signature}
    {name : String} (h : (key, name) ∈ s.specializations) :
    s.specialization? key = s.typed.find? name := by
  unfold specialization?
  cases hlookup : s.specializations.lookup key with
  | none => simpa using List.lookup_eq_none_iff.1 hlookup _ h
  | some found =>
    obtain ⟨l₁, l₂, heq, -⟩ := List.lookup_eq_some_iff.1 hlookup
    have hfound : (key, found) ∈ s.specializations := by simp [heq]
    have hname : found = name := (hs _ hfound _ h).1 rfl
    rw [hname]
    rfl

/-- A function that was registered has a definition. -/
theorem exists_find?_register (s : Session) (decl : FnDecl) :
    ∃ known, (s.register decl).2.sources.find? decl.name = some known := by
  unfold register
  split
  · exact ⟨_, ‹_›⟩
  · exact ⟨decl, by rw [NameMap.find?_insert, if_pos rfl]⟩

/-- From `s` to `u` nothing is forgotten, and functions are specialized under names with a bracket. No
specialized function is replaced if all specializations are among those of `t`, for which the names are
reserved. -/
structure Grows (t s u : Session) : Prop where
  sources : s.sources.Included u.sources
  specializations : s.specializations ⊆ u.specializations
  bracketed {name : String} (h : u.typed.contains name = true) :
    s.typed.contains name = true ∨ '[' ∈ name.toList
  typed (hu : u.specializations ⊆ t.specializations) (hs : s.Reserves t) :
    u.Reserves t ∧ s.typed.Included u.typed

namespace Grows

variable {r s t u v : Session} {key : Signature} {func : TypedFn}

theorem refl (t s : Session) : t.Grows s s where
  sources := NameMap.Included.refl _
  specializations := List.Subset.refl _
  bracketed h := .inl h
  typed _ hs := ⟨hs, NameMap.Included.refl _⟩

theorem trans (hrs : t.Grows r s) (hsu : t.Grows s u) : t.Grows r u where
  sources name decl h := hsu.sources name decl (hrs.sources name decl h)
  specializations := List.Subset.trans hrs.specializations hsu.specializations
  bracketed h := (hsu.bracketed h).elim hrs.bracketed .inr
  typed hu hr := by
    obtain ⟨hs, hrs'⟩ := hrs.typed (List.Subset.trans hsu.specializations hu) hr
    obtain ⟨hu, hsu'⟩ := hsu.typed hu hs
    exact ⟨hu, fun name func h => hsu' name func (hrs' name func h)⟩

/-- A step that changes neither the specializations nor the specialized functions. -/
theorem of_eq (h : t.Grows s u) (hsources : u.sources.Included v.sources) (htyped : v.typed = u.typed)
    (hspec : v.specializations = u.specializations) : t.Grows s v := by
  obtain ⟨sources, typed, specializations, _, _, _, _, _⟩ := v
  cases htyped
  cases hspec
  exact ⟨fun name decl hname => hsources name decl (h.sources name decl hname), h.specializations,
    h.bracketed, h.typed⟩

theorem register (decl : FnDecl) (h : t.Grows s u) : t.Grows s (u.register decl).2 :=
  h.of_eq (sources_register u decl) (typed_register u decl) (specializations_register u decl)

theorem contains_insertTyped (s : Session) (func : TypedFn) (name : String) :
    (s.insertTyped func).typed.contains name = true ↔
      name = func.name ∨ s.typed.contains name = true := by
  unfold NameMap.contains insertTyped
  dsimp only
  rw [NameMap.find?_insert]
  by_cases h : name = func.name <;> simp [h]

/-- A name that is reserved for a signature without a function is free. -/
theorem find?_eq_none_of_new (ht : t.NamedApart) (hs : s.Reserves t)
    (hsub : s.specializations ⊆ t.specializations) {name : String}
    (hmem : (key, name) ∈ t.specializations) (hnew : s.specialization? key = none) :
    s.typed.find? name = none := by
  rw [Option.eq_none_iff_forall_ne_some]
  intro func hfind
  have hkey : (key, name) ∈ s.specializations :=
    hs _ hmem (NameMap.contains_of_find? hfind)
  rw [(ht.mono hsub).specialization?_of_mem hkey, hfind] at hnew
  cases hnew

theorem recordSpecialization (ht : t.NamedApart) (h : t.Grows s u)
    (hnew : s.specialization? key = none) (hname : func.name = key.text) :
    t.Grows s (u.recordSpecialization key func) where
  sources := h.sources
  specializations p hp := List.mem_cons_of_mem _ (h.specializations hp)
  bracketed {name} hfound := by
    rcases (contains_insertTyped u func name).1 hfound with rfl | hfound
    · right
      rw [hname, Signature.text, toList_specializedName]
      simp
    · exact h.bracketed hfound
  typed hsub hs := by
    obtain ⟨hmem, hsub⟩ := List.cons_subset.1 hsub
    obtain ⟨hu, htyped⟩ := h.typed hsub hs
    refine ⟨fun p hp hfound => ?_, fun name found hfind => ?_⟩
    · rcases (contains_insertTyped u func p.2).1 hfound with hp' | hfound
      · have hkey : p.1 = key := (ht p hp _ hmem).2 hp'
        exact List.mem_cons.2 (.inl (Prod.ext hkey hp'))
      · exact List.mem_cons_of_mem _ (hu p hp hfound)
    · show (u.typed.insert func.name func).find? name = some found
      -- The signature had no function, so the name that is reserved for it was not in use.
      have hfree := find?_eq_none_of_new ht hs (List.Subset.trans h.specializations hsub) hmem hnew
      have hne : name ≠ func.name := by
        rintro rfl
        rw [hfree] at hfind
        cases hfind
      rw [NameMap.find?_insert, if_neg hne]
      exact htyped name found hfind

/-- On the way to `t` the function of a signature stays. -/
theorem specialization?_eq (ht : t.NamedApart) (h : t.Grows s t) (hs : s.Reserves t)
    (hfunc : s.specialization? key = some func) : t.specialization? key = some func := by
  obtain ⟨name, hmem, -, hfind⟩ := specialization?_eq_some hfunc
  have hkept := (h.typed (List.Subset.refl _) hs).2
  rw [ht.specialization?_of_mem (h.specializations hmem)]
  exact hkept name func hfind

end Grows

theorem grows_evolution {t : Session} (ht : t.NamedApart) : Evolution t.Grows where
  refl _ := .refl _ _
  trans := .trans
  register decl h := h.register decl
  beginSpecialization _ h := h.of_eq (NameMap.Included.refl _) rfl rfl
  endSpecialization _ h := h.of_eq (NameMap.Included.refl _) rfl rfl
  recordSpecialization h hnew hname _ := h.recordSpecialization ht hnew hname

theorem Filed.namedApart {t : Session} (ht : t.Filed)
    (hrivals : ∀ key ∈ t.signatures, ¬t.Rivaled key) : t.NamedApart := by
  intro p hp p' hp'
  rw [ht.names p hp, ht.names p' hp']
  refine ⟨congrArg _, fun htext => ?_⟩
  by_contra hne
  exact hrivals _ (List.mem_map_of_mem hp) ⟨p'.1, List.mem_map_of_mem hp', Ne.symm hne, htext.symm⟩

theorem Develops.reserves {s t : Session} (h : s.Develops t) (hs : s.Filed)
    (hrivals : ∀ key ∈ t.signatures, ¬t.Rivaled key) : s.Reserves t := by
  intro p hp hfound
  obtain ⟨func, hfunc⟩ := Option.isSome_iff_exists.1 hfound
  obtain ⟨key, hkey, htext, -⟩ := hs.made hfunc
  obtain ⟨p', hp', rfl⟩ := List.mem_map.1 hkey
  have hname : p.2 = p.1.text := h.filed.names p hp
  have hsame : p'.1 = p.1 := by
    by_contra hne
    refine hrivals _ (List.mem_map_of_mem hp) ⟨p'.1, h.signatures _ hkey, hne, ?_⟩
    rw [htext, hname]
  have heq : p' = p := Prod.ext hsame ((hs.names p' hp').trans htext)
  rwa [← heq]

/-- In sessions that arise from a new one it is enough that no two signatures have the same text. -/
theorem Later.reserves {converter? : Option Converter} {s t : Session}
    (hs : (Session.new converter?).Later s) (hst : s.Later t)
    (hrivals : ∀ key ∈ t.signatures, ¬t.Rivaled key) : t.NamedApart ∧ s.Reserves t := by
  have hfiled := filed_of_later hs
  have hdevelops := hst.develops hfiled
  exact ⟨hdevelops.filed.namedApart hrivals, hdevelops.reserves hfiled hrivals⟩

end Session

/-! ## Repeating -/

/-- What the computation gives in a session, it gives again in the later session `t`, where it changes
nothing. -/
structure Typing.Repeats (t : Session) {α : Type} (x : Typing α) : Prop where
  grows (s : Session) : t.Grows s (exec x s).2
  again {s u : Session} {a : α} (h : exec x s = (.ok a, u)) (hs : s.Reserves t) (hu : t.Grows u t) :
    exec x t = (.ok a, t)

namespace Typing.Repeats

variable {t : Session} {α β : Type}

theorem grows_of_eq {x : Typing α} {s u : Session} {r : Except TypingStop α} (hx : Repeats t x)
    (h : exec x s = (r, u)) : t.Grows s u := by
  have hgrows := hx.grows s
  rwa [h] at hgrows

theorem pure (a : α) : Repeats t (Pure.pure a : Typing α) where
  grows s := .refl t s
  again h _ _ := by
    cases h
    rfl

theorem throw (e : TypingStop) : Repeats t (throw e : Typing α) where
  grows s := .refl t s
  again h _ _ := by cases h

theorem bind {x : Typing α} {f : α → Typing β} (hx : Repeats t x) (hf : ∀ a, Repeats t (f a)) :
    Repeats t (x >>= f) where
  grows s := by
    rw [exec_bind]
    cases h : exec x s with
    | mk r v =>
      have hv := hx.grows_of_eq h
      cases r with
      | error e => exact hv
      | ok a => exact hv.trans ((hf a).grows v)
  again {s u b} h hs hu := by
    obtain ⟨a, v, hxv, hfu⟩ := exec_bind_eq_ok h
    have hsv := hx.grows_of_eq hxv
    have hvt := ((hf a).grows_of_eq hfu).trans hu
    have hv := (hsv.typed hvt.specializations hs).1
    rw [exec_bind, hx.again hxv hs hvt]
    exact (hf a).again hfu hv hu

/-- A function that was registered is registered in `t` already. -/
theorem register (decl : FnDecl) :
    Repeats t (modify fun s => (s.register decl).2 : Typing PUnit) where
  grows s := (Session.Grows.refl t s).register decl
  again {s u a} h _ hu := by
    cases h
    obtain ⟨known, hknown⟩ := s.exists_find?_register decl
    have hregister : t.register decl = (known, t) := by
      rw [Session.register, hu.sources _ _ hknown]
    show (Except.ok PUnit.unit, (t.register decl).2) = _
    rw [hregister]

/-! ### Looking functions up -/

/-- A source function that was found is found again. -/
theorem lookupSource (cause : TypingError) (name : String) {next : FnDecl → Typing α}
    (hnext : ∀ decl, Repeats t (next decl)) : Repeats t (Typing.lookupSource cause name next) where
  grows s := by
    rw [exec_lookupSource]
    split
    · exact (hnext _).grows s
    · exact .refl t s
  again {s u a} h hs hu := by
    rw [exec_lookupSource] at h ⊢
    cases hfind : s.sources.find? name with
    | none =>
      rw [hfind] at h
      cases h
    | some decl =>
      rw [hfind] at h
      have hst := ((hnext decl).grows_of_eq h).trans hu
      rw [hst.sources name decl hfind]
      exact (hnext decl).again h hs hu

/-- A specialized function that was found is found again. If only source code had the name, it has no
bracket, and so no function was specialized under it since. -/
theorem lookupFn (hnames : ∀ name ∈ t.sources.names, '[' ∉ name.toList) (cause : TypingError)
    (name : String) {typed : TypedFn → Typing α} {source : FnDecl → Typing α}
    (htyped : ∀ func, Repeats t (typed func)) (hsource : ∀ decl, Repeats t (source decl)) :
    Repeats t (Typing.lookupFn cause name typed source) where
  grows s := by
    rw [exec_lookupFn]
    split
    · exact (htyped _).grows s
    · exact (lookupSource cause name hsource).grows s
  again {s u a} h hs hu := by
    rw [exec_lookupFn] at h ⊢
    cases hfind : s.typed.find? name with
    | some func =>
      rw [hfind] at h
      have hst := ((htyped func).grows_of_eq h).trans hu
      have hkept := (hst.typed (List.Subset.refl _) hs).2
      rw [hkept name func hfind]
      exact (htyped func).again h hs hu
    | none =>
      rw [hfind] at h
      have hlookup := lookupSource cause name hsource
      have hst := (hlookup.grows_of_eq h).trans hu
      have hname : name ∈ t.sources.names := by
        cases hdecl : s.sources.find? name with
        | none =>
          dsimp only at h
          rw [exec_lookupSource, hdecl] at h
          cases h
        | some decl => exact NameMap.mem_names_of_find? (hst.sources name decl hdecl)
      have hnone : t.typed.find? name = none := by
        rw [Option.eq_none_iff_forall_ne_some]
        intro func hfunc
        rcases hst.bracketed (NameMap.contains_of_find? hfunc) with hold | hbracket
        · rw [NameMap.contains, hfind] at hold
          cases hold
        · exact hnames name hname hbracket
      rw [hnone]
      exact hlookup.again h hs hu

/-- A function that was there is still there. -/
theorem requireFn (cause : TypingError) (name : String) {next : Typing α} (hnext : Repeats t next) :
    Repeats t (Typing.requireFn cause name next) where
  grows s := by
    rw [exec_requireFn]
    split
    · exact hnext.grows s
    · exact .refl t s
  again {s u a} h hs hu := by
    rw [exec_requireFn] at h ⊢
    split at h
    · rename_i hpresent
      have hst := (hnext.grows_of_eq h).trans hu
      have hkept := (hst.typed (List.Subset.refl _) hs).2
      rw [Bool.or_eq_true] at hpresent
      have hstill : (t.sources.contains name || t.typed.contains name) = true := by
        rw [Bool.or_eq_true]
        exact hpresent.imp (NameMap.Included.contains hst.sources) hkept.contains
      rw [if_pos hstill]
      exact hnext.again h hs hu
    · cases h

/-- How code is typed in one session after another: what looks functions up can be done again. -/
theorem congruence (hnames : ∀ name ∈ t.sources.names, '[' ∉ name.toList) :
    LookupCongruence fun x _ => Repeats t x where
  pure := pure
  fail _ := throw _
  untyped := throw _
  bind := bind
  register := register
  source cause name _ _ := lookupSource cause name
  fn cause name _ _ _ _ := lookupFn hnames cause name
  present cause name _ _ := requireFn cause name

end Typing.Repeats

/-! ## Specializing and annotating again -/

section
variable {t : Session} (ht : t.NamedApart)
include ht

theorem specializeBound_grows (fuel : Nat) (func : FnDecl) (params : List (String × Ty))
    (s : Session) : t.Grows s (exec (specializeBound fuel func params) s).2 := by
  have hkeeps := (Session.grows_evolution ht).specializeBound_keeps fuel s func params
    (fun _ _ => trivial) fun _ _ => trivial
  exact hkeeps.exec_snd (.refl t s)

/-- The function that specializing gave is recorded, and found under its signature from then on. -/
theorem specializeBound_repeats (fuel : Nat) (func : FnDecl) (params : List (String × Ty)) :
    Repeats t (specializeBound fuel func params) where
  grows := specializeBound_grows ht fuel func params
  again {s u typed} h hs hu := by
    have hsu := specializeBound_grows ht fuel func params s
    rw [h] at hsu
    have hreserved := (hsu.typed hu.specializations hs).1
    have hkept := hu.specialization?_eq ht hreserved (specializeBound_recorded h)
    cases fuel with
    | zero => cases h
    | succ fuel => exact exec_specializeBound_of_recorded hkept fuel

/-- An expression that was annotated is annotated again in the same way. -/
theorem annotate_repeats (hnames : ∀ name ∈ t.sources.names, '[' ∉ name.toList) (fuel : Nat)
    (env : TypeEnv) (e : Expr) : Repeats t (annotate (specializeBound fuel) env e) := by
  have hspec : (specializeBound fuel).Related (fun x _ => Repeats t x) (specializeBound fuel) :=
    fun func params => specializeBound_repeats ht fuel func params
  exact annotate_congr (Repeats.congruence hnames) hspec e

end
end ArrayLang
