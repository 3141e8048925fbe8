import ArrayLang.Proofs.CopyElimination.Interface
import ArrayLang.Proofs.Session.AppendOnly
import ArrayLang.Proofs.Syntax.Equality

/-!
# Copy elimination reaches a fixed point

Copy elimination ends for every function, well typed or not: every step that is found can be made,
and a step that is made leaves fewer statements. What it gives has no step left, so eliminating copies
once more changes nothing, neither in a function nor in a session.

A pass over a session stores each function that differs from what is made of it. A function with a
constant that is not a number differs from itself, and so every pass stores it again. What is stored is
then what was there.

## Main results

- `CopyElimination.exists_applyStep?`: a step that is found can be made.
- `Session.mem_rewritten_eliminateCopies`: which functions a second pass over a session stores.
- `CopyElimination.reaches_fixed_point`: copy elimination ends, and is idempotent.
-/

namespace ArrayLang

/-! ## Numbers of statements -/

namespace Stmt

variable {block : Block} {s : Stmt} {k : Nat}

theorem count_pos (s : Stmt) : 0 < s.count := by
  cases s <;> exact Nat.succ_pos _

theorem countAll_set (s' : Stmt) (h : block[k]? = some s) :
    countAll (block.set k s') + s.count = countAll block + s'.count := by
  induction block generalizing k with
  | nil => cases h
  | cons t ss ih =>
    cases k with
    | zero =>
      cases h
      rw [List.set_cons_zero, countAll, countAll]
      omega
    | succ k =>
      have hss := ih (k := k) h
      rw [List.set_cons_succ, countAll, countAll]
      omega

theorem countAll_eraseIdx (h : block[k]? = some s) :
    countAll (block.eraseIdx k) + s.count = countAll block := by
  induction block generalizing k with
  | nil => cases h
  | cons t ss ih =>
    cases k with
    | zero =>
      cases h
      rw [List.eraseIdx_cons_zero, countAll]
      omega
    | succ k =>
      have hss := ih (k := k) h
      rw [List.eraseIdx_cons_succ, countAll, countAll]
      omega

/-- The statements of a nested block are replaced with those of the block that takes its place. -/
theorem count_setPart {outer : Stmt} {part : Nat} {inner : Block} (inner' : Block)
    (h : outer.part? part = some inner) :
    (outer.setPart part inner').count + countAll inner = outer.count + countAll inner' := by
  unfold part? at h
  split at h
  · cases h
    rw [setPart, count, count]
    omega
  · cases h
    rw [setPart, count, count]
    omega
  · cases h
    rw [setPart, count, count]
    omega
  · cases h

mutual
/-- Equal statements have the same number of statements in them. -/
theorem count_of_same : ∀ s t : Stmt, s.same t = true → s.count = t.count
  | .assign _ _, t, h => by
    cases t with
    | assign _ _ => rfl
    | _ => cases h
  | .ret _, t, h => by
    cases t with
    | ret _ => rfl
    | _ => cases h
  | .branch cond onTrue onFalse merge, t, h => by
    cases t with
    | branch cond' onTrue' onFalse' merge' =>
      simp only [same, Bool.and_eq_true] at h
      obtain ⟨⟨⟨-, htrue⟩, hfalse⟩, -⟩ := h
      rw [count, count, countAll_of_same onTrue onTrue' htrue,
        countAll_of_same onFalse onFalse' hfalse]
    | _ => cases h
  | .loop cond body merge, t, h => by
    cases t with
    | loop cond' body' merge' =>
      simp only [same, Bool.and_eq_true] at h
      obtain ⟨⟨-, hbody⟩, -⟩ := h
      rw [count, count, countAll_of_same body body' hbody]
    | _ => cases h
termination_by structural s => s

theorem countAll_of_same : ∀ ss ts : List Stmt, sameList ss ts = true → countAll ss = countAll ts
  | [], [], _ => rfl
  | s :: ss, t :: ts, h => by
    rw [sameList, Bool.and_eq_true] at h
    rw [countAll, countAll, count_of_same s t h.1, countAll_of_same ss ts h.2]
  | [], _ :: _, h => by cases h
  | _ :: _, [], h => by cases h
termination_by structural ss => ss
end

end Stmt

/-! ## Changes that can be made -/

namespace Block

variable {change : Nat → Block → Option Block} {s : Stmt}

/-- A change can be made at a path if it can be made to the block that the path leads into. -/
theorem exists_modifyAt? (base : ∀ k (block : Block), block[k]? = some s →
      ∃ block', change k block = some block') :
    ∀ (path : Path) (block : Block), block.stmtAt? path = some s →
      ∃ block', block.modifyAt? change path = some block'
  | [], _, hat => by cases hat
  | [k], block, hat => base k block hat
  | k :: part :: rest, block, hat => by
    rw [stmtAt?] at hat
    obtain ⟨outer, houter, hat⟩ := Option.bind_eq_some_iff.1 hat
    obtain ⟨inner, hinner, hat⟩ := Option.bind_eq_some_iff.1 hat
    obtain ⟨inner', hinner'⟩ := exists_modifyAt? base rest inner hat
    refine ⟨block.set k (outer.setPart part inner'), ?_⟩
    rw [modifyAt?, houter]
    show (outer.part? part >>= _) = _
    rw [hinner]
    show (modifyAt? change inner rest >>= _) = _
    rw [hinner']
    rfl

/-- A change at a path changes the number of statements as it does in the block that the path leads
into. -/
theorem countAll_modify {lost gained : Nat}
    (base : ∀ k (block block' : Block), block[k]? = some s → change k block = some block' →
      Stmt.countAll block' + lost = Stmt.countAll block + gained)
    {path : Path} {block block' : Block} (hat : block.stmtAt? path = some s)
    (h : block.modifyAt? change path = some block') :
    Stmt.countAll block' + lost = Stmt.countAll block + gained := by
  refine modifyAt?_induct
    (R := fun block block' => Stmt.countAll block' + lost = Stmt.countAll block + gained)
    base ?_ path block block' hat h
  intro k part block inner inner' outer houter hinner ih
  have hset := Stmt.countAll_set (outer.setPart part inner') houter
  have hpart := Stmt.count_setPart inner' hinner
  omega

end Block

namespace CopyElimination

variable {f g h : TypedFn} {body : Block} {path : Path} {s : Stmt} {step : CopyStep}

/-- A statement that a path leads to can be removed, which leaves fewer statements. -/
theorem exists_removeAt? (hat : body.stmtAt? path = some s) :
    ∃ rest, removeAt? body path = some (s, rest) ∧ Stmt.countAll rest < Stmt.countAll body := by
  have hbase : ∀ k (block : Block), block[k]? = some s →
      ∃ block', some (block.eraseIdx k) = some block' := fun _ _ _ => ⟨_, rfl⟩
  obtain ⟨rest, hrest⟩ := Block.exists_modifyAt? hbase path body hat
  refine ⟨rest, by rw [removeAt?, hat, Option.bind_eq_bind, Option.bind_some, hrest]; rfl, ?_⟩
  have hcount : Stmt.countAll rest + s.count = Stmt.countAll body + 0 := by
    refine Block.countAll_modify ?_ hat hrest
    intro k block block' hk hchange
    cases hchange
    exact Stmt.countAll_eraseIdx hk
  have hpos := s.count_pos
  omega

/-- An assignment that a path leads to can be changed, which leaves as many statements. -/
theorem exists_changeAssign? {target value : Expr} (change : Expr → Expr → Expr × Expr)
    (hat : body.stmtAt? path = some (.assign target value)) :
    ∃ body', changeAssign? body path change = some body'
      ∧ Stmt.countAll body' = Stmt.countAll body := by
  obtain ⟨body', hbody'⟩ : ∃ body', changeAssign? body path change = some body' := by
    refine Block.exists_modifyAt? (fun k block hk => ?_) path body hat
    rw [hk]
    exact ⟨_, rfl⟩
  refine ⟨body', hbody', ?_⟩
  have hcount : Stmt.countAll body' + 1 = Stmt.countAll body + 1 := by
    refine Block.countAll_modify ?_ hat hbody'
    intro k block block' hk hchange
    rw [hk] at hchange
    cases hchange
    exact Stmt.countAll_set _ hk
  omega

/-! ## Steps that are found -/

/-- A step that is found can be made, and leaves fewer statements. The copy is removed first, and the
allocation is still where it was, since it comes before the copy in one block. -/
theorem exists_applyStep? (hfind : findStep? f (DataflowFacts.compute f) = some step) :
    ∃ g, applyStep? f step = some g ∧ Stmt.countAll g.body < Stmt.countAll f.body := by
  obtain ⟨copy, target, value, dest, indices, hmem, -, -, hstep⟩ := findStep?_eq_some hfind
  obtain ⟨rest, hremove, hless⟩ := exists_removeAt? (Block.mem_assignments.1 hmem)
  rcases hstep with ⟨-, rfl⟩ | hfusion
  · exact ⟨{ f with body := rest }, by rw [applyStep?, hremove]; rfl, hless⟩
  · obtain ⟨src, alloc, hfusable, hkind⟩ := fusion?_eq_some hfusion
    obtain ⟨ty?, made, halloc, -, -⟩ := mem_assignments_of_allocations hfusable.made
    -- Removing the copy moves only what comes after it in its block.
    have hat : rest.stmtAt? alloc.path = some (.assign ⟨.var src, ty?⟩ made) :=
      (removeAt?_stmtAt? hfusable.before hremove).trans (Block.mem_assignments.1 halloc)
    rcases hkind with ⟨-, rfl⟩ | ⟨-, -, rfl⟩
    · obtain ⟨body, hchange, hsame⟩ := exists_changeAssign? (fun _ value => (target, value)) hat
      refine ⟨{ f with body, typeEnv := f.typeEnv.erase src }, ?_, hsame ▸ hless⟩
      simp only [applyStep?, hremove, hat, hchange, Option.bind_eq_bind, Option.bind_some]
      rfl
    · obtain ⟨body, hchange, hsame⟩ := exists_changeAssign? (fun made _ => (made, target)) hat
      refine ⟨{ f with body }, ?_, hsame ▸ hless⟩
      simp only [applyStep?, hremove, hchange, Option.bind_eq_bind, Option.bind_some]
      rfl

/-! ## All steps -/

/-- Making steps as long as one is found ends, with every step that is found being made. -/
inductive Completes : TypedFn → TypedFn → Prop
  | stop {f : TypedFn} (hfind : findStep? f (DataflowFacts.compute f) = none) : Completes f f
  | step {f g h : TypedFn} {step : CopyStep}
    (hfind : findStep? f (DataflowFacts.compute f) = some step)
    (happly : applyStep? f step = some g) (hrest : Completes g h) : Completes f h

namespace Completes

/-- Nothing is left to do at the end. -/
theorem done (hfg : Completes f g) : findStep? g (DataflowFacts.compute g) = none := by
  induction hfg with
  | stop hfind => exact hfind
  | step _ _ _ ih => exact ih

/-- Unless there was nothing to do, fewer statements are left. -/
theorem eq_or_lt (hfg : Completes f g) :
    g = f ∨ Stmt.countAll g.body < Stmt.countAll f.body := by
  induction hfg with
  | stop => exact .inl rfl
  | @step f g h step hfind happly _ ih =>
    obtain ⟨g', happly', hless⟩ := exists_applyStep? hfind
    obtain rfl : g' = g := Option.some_inj.1 (happly'.symm.trans happly)
    rcases ih with rfl | hlt
    · exact .inr hless
    · exact .inr (Nat.lt_trans hlt hless)

end Completes

theorem step?_eq_none (hdone : findStep? f (DataflowFacts.compute f) = none) : step? f = none := by
  rw [step?, hdone]
  rfl

/-- As many steps as there are statements are enough. -/
theorem makeSteps_completes (steps : Nat) (f : TypedFn) (hsteps : Stmt.countAll f.body ≤ steps) :
    Completes f (makeSteps steps f) := by
  induction steps generalizing f with
  | zero =>
    cases hfind : findStep? f (DataflowFacts.compute f) with
    | none => exact .stop hfind
    | some step =>
      -- No statement is left, and a step would leave fewer.
      obtain ⟨g, -, hless⟩ := exists_applyStep? hfind
      omega
  | succ steps ih =>
    rw [makeSteps]
    cases hfind : findStep? f (DataflowFacts.compute f) with
    | none =>
      rw [step?_eq_none hfind]
      exact .stop hfind
    | some step =>
      obtain ⟨g, happly, hless⟩ := exists_applyStep? hfind
      have hstep : step? f = some g := by
        rw [step?, hfind]
        exact happly
      rw [hstep]
      exact .step hfind happly (ih g (by omega))

theorem makeSteps_of_done (steps : Nat) (hdone : findStep? f (DataflowFacts.compute f) = none) :
    makeSteps steps f = f := by
  cases steps with
  | zero => rfl
  | succ steps => rw [makeSteps, step?_eq_none hdone]

end CopyElimination

/-! ## Functions -/

namespace TypedFn

open CopyElimination

theorem eliminateCopies_completes (f : TypedFn) :
    (f.allScalar = true ∧ f.eliminateCopies = f) ∨ Completes f f.eliminateCopies := by
  unfold eliminateCopies
  by_cases hscalar : f.allScalar = true
  · exact .inl ⟨hscalar, if_pos hscalar⟩
  · rw [if_neg hscalar]
    exact .inr (makeSteps_completes _ f (Nat.le_refl _))

theorem eliminateCopies_of_done {f : TypedFn}
    (hdone : findStep? f (DataflowFacts.compute f) = none) : f.eliminateCopies = f := by
  unfold eliminateCopies
  rw [makeSteps_of_done _ hdone, ite_self]

theorem eliminateCopies_eliminateCopies (f : TypedFn) :
    f.eliminateCopies.eliminateCopies = f.eliminateCopies := by
  rcases f.eliminateCopies_completes with ⟨-, hsame⟩ | hcompletes
  · rw [hsame, hsame]
  · exact eliminateCopies_of_done hcompletes.done

/-- A function that compares equal to what copy elimination makes of it was left as it is. -/
theorem eliminateCopies_eq_of_same {f : TypedFn} (hsame : f.same f.eliminateCopies = true) :
    f.eliminateCopies = f := by
  rcases f.eliminateCopies_completes with ⟨-, heq⟩ | hcompletes
  · exact heq
  · rcases hcompletes.eq_or_lt with heq | hlt
    · exact heq
    · simp only [same, Bool.and_eq_true] at hsame
      have hcount := Stmt.countAll_of_same _ _ hsame.1.1.2
      omega

end TypedFn

/-! ## Sessions -/

namespace NameMap

variable {α : Type}

theorem eq_of_entries {m m' : NameMap α} (h : m.entries = m'.entries) : m = m' := by
  cases m
  cases m'
  cases h
  rfl

/-- Inserting a name that is there puts the new value in the place of the old one. -/
theorem insertEntry_of_mem {name : String} {value old : α} {l₁ l₂ : List (String × α)}
    (h : (l₁ ++ (name, old) :: l₂).Pairwise fun a b => a.1 < b.1) :
    insertEntry name value (l₁ ++ (name, old) :: l₂) = l₁ ++ (name, value) :: l₂ := by
  induction l₁ with
  | nil => rw [List.nil_append, insertEntry, if_neg (String.lt_irrefl _),
      if_neg (String.lt_irrefl _), List.nil_append]
  | cons e l₁ ih =>
    obtain ⟨hbefore, hrest⟩ := List.pairwise_cons.1 h
    have hlt : e.1 < name := hbefore (name, old) (List.mem_append_right _ List.mem_cons_self)
    rw [List.cons_append, insertEntry, if_neg (String.lt_asymm hlt), if_pos hlt, ih hrest,
      List.cons_append]

end NameMap

namespace Session

variable {s : Session}

/-- Eliminating copies in the functions that are left, after some that are done: each function is put
back in its place. -/
theorem foldl_eliminateCopies : ∀ (left done : List (String × TypedFn)) (s : Session),
    s.typed.entries = done ++ left → (∀ e ∈ left, e.2.name = e.1) →
      ∃ typed : NameMap TypedFn,
        (left.map (·.2)).foldl (fun s f =>
            if f.same f.eliminateCopies then s else s.insertTyped f.eliminateCopies) s
          = { s with typed }
        ∧ typed.entries = done ++ left.map fun e => (e.1, e.2.eliminateCopies)
  | [], done, s, hs, _ => ⟨s.typed, rfl, hs⟩
  | (name, f) :: left, done, s, hs, hnames => by
    have hname : f.name = name := hnames _ List.mem_cons_self
    have hsorted := s.typed.sorted
    rw [hs] at hsorted
    rw [List.map_cons, List.foldl_cons, List.map_cons]
    obtain ⟨typed, hstep, hentries⟩ : ∃ typed : NameMap TypedFn,
        (if f.same f.eliminateCopies then s else s.insertTyped f.eliminateCopies) = { s with typed }
          ∧ typed.entries = done ++ (name, f.eliminateCopies) :: left := by
      -- What is not stored since it compares equal to its result is its result.
      by_cases hsame : f.same f.eliminateCopies = true
      · refine ⟨s.typed, if_pos hsame, ?_⟩
        rw [TypedFn.eliminateCopies_eq_of_same hsame, hs]
      · refine ⟨s.typed.insert f.eliminateCopies.name f.eliminateCopies, if_neg hsame, ?_⟩
        show NameMap.insertEntry f.eliminateCopies.name f.eliminateCopies s.typed.entries = _
        rw [f.eliminateCopies_narrows.name, hname, hs]
        exact NameMap.insertEntry_of_mem hsorted
    rw [hstep]
    obtain ⟨typed', hrest, hentries'⟩ := foldl_eliminateCopies left
      (done ++ [(name, f.eliminateCopies)]) { s with typed }
      (by rw [hentries, List.append_assoc]; rfl) fun e he => hnames e (List.mem_cons_of_mem _ he)
    refine ⟨typed', hrest, ?_⟩
    rw [hentries', List.append_assoc]
    rfl

/-- Copy elimination replaces every typed function of a session by what it makes of the function. -/
theorem eliminateCopies_eq (hs : s.ByName) :
    s.eliminateCopies = { s with typed := s.typed.map TypedFn.eliminateCopies } := by
  obtain ⟨typed, hfold, hentries⟩ := foldl_eliminateCopies s.typed.entries [] s rfl hs
  have htyped : typed = s.typed.map TypedFn.eliminateCopies := NameMap.eq_of_entries hentries
  rw [← htyped, ← hfold]
  rfl

theorem eliminateCopies_eliminateCopies (hs : s.ByName) :
    s.eliminateCopies.eliminateCopies = s.eliminateCopies := by
  rw [eliminateCopies_eq (stable_byName.eliminateCopies hs), eliminateCopies_eq hs]
  have htwice : (s.typed.map TypedFn.eliminateCopies).map TypedFn.eliminateCopies
      = s.typed.map TypedFn.eliminateCopies := by
    refine NameMap.eq_of_entries ?_
    show (s.typed.entries.map _).map _ = s.typed.entries.map _
    rw [List.map_map]
    refine List.map_congr_left fun e _ => ?_
    exact congrArg (Prod.mk e.1) e.2.eliminateCopies_eliminateCopies
  rw [htwice]

/-- The functions that a pass over a session stores: what is made of each function that differs from
it. -/
def rewritten (s : Session) : List TypedFn :=
  (s.typed.values.filter fun f => !f.same f.eliminateCopies).map TypedFn.eliminateCopies

/-- A pass stores these functions, one after the other, and does nothing else. -/
theorem eliminateCopies_eq_foldl (s : Session) :
    s.eliminateCopies = s.rewritten.foldl insertTyped s := by
  unfold eliminateCopies rewritten
  rw [List.foldl_map, List.foldl_filter]
  congr 1
  funext s f
  dsimp only
  cases f.same f.eliminateCopies <;> rfl

theorem eliminateCopies_of_mem (hs : s.ByName) {f : TypedFn}
    (hf : f ∈ s.eliminateCopies.typed.values) : f.eliminateCopies = f := by
  rw [eliminateCopies_eq hs] at hf
  obtain ⟨e, he, rfl⟩ := List.mem_map.1 hf
  obtain ⟨e, -, rfl⟩ := List.mem_map.1 he
  exact e.2.eliminateCopies_eliminateCopies

/-- A second pass stores the functions with a constant that is not a number, each as it is. -/
theorem mem_rewritten_eliminateCopies (hs : s.ByName) {f : TypedFn} :
    f ∈ s.eliminateCopies.rewritten ↔ f ∈ s.eliminateCopies.typed.values
      ∧ ∃ x, .float x ∈ Stmt.constantsList f.body ∧ (x == x) = false := by
  have hdiffers : f.same f = false
      ↔ ∃ x, .float x ∈ Stmt.constantsList f.body ∧ (x == x) = false := by
    rw [← Bool.not_eq_true, TypedFn.same_self_iff]
    simp only [not_forall, Bool.not_eq_true, exists_prop]
  rw [← hdiffers, rewritten, List.mem_map]
  constructor
  · rintro ⟨g, hg, rfl⟩
    obtain ⟨hmem, hnot⟩ := List.mem_filter.1 hg
    rw [eliminateCopies_of_mem hs hmem, Bool.not_eq_true'] at hnot
    rw [eliminateCopies_of_mem hs hmem]
    exact ⟨hmem, hnot⟩
  · rintro ⟨hmem, hnot⟩
    have hsettled := eliminateCopies_of_mem hs hmem
    exact ⟨f, List.mem_filter.2 ⟨hmem, by rw [hsettled, hnot]; rfl⟩, hsettled⟩

end Session

/-! ## Fixed points -/

/-- Copy elimination ends for every function, with every step that it finds being made, and once more
it changes nothing. So all functions of a session are left as they are when copies are eliminated in
them again, whatever was done with the session before, although those with a constant that is not a
number are stored once more. -/
theorem CopyElimination.reaches_fixed_point :
    (∀ f : TypedFn, (f.allScalar = true ∧ f.eliminateCopies = f) ∨ Completes f f.eliminateCopies)
      ∧ (∀ f : TypedFn, f.eliminateCopies.eliminateCopies = f.eliminateCopies)
      ∧ ∀ (converter? : Option Converter) (ops : List Operation),
        let s := ((Session.new converter?).performAll ops).eliminateCopies
        (∀ f ∈ s.typed.values, f.eliminateCopies = f)
          ∧ (∀ f, f ∈ s.rewritten ↔ f ∈ s.typed.values
            ∧ ∃ x, .float x ∈ Stmt.constantsList f.body ∧ (x == x) = false)
          ∧ s.eliminateCopies = s := by
  refine ⟨TypedFn.eliminateCopies_completes, TypedFn.eliminateCopies_eliminateCopies,
    fun converter? ops => ?_⟩
  have hs : ((Session.new converter?).performAll ops).ByName :=
    Session.stable_byName.performAll (fun _ h => (List.not_mem_nil h).elim) ops
  exact ⟨fun f => Session.eliminateCopies_of_mem hs,
    fun f => Session.mem_rewritten_eliminateCopies hs, Session.eliminateCopies_eliminateCopies hs⟩

/-- Making the row in its place is the only step, and a session with the function settles at once. -/
theorem CopyElimination.reaches_fixed_point_clearRow :
    Completes TypedFn.clearRow TypedFn.clearRow.eliminateCopies
      ∧ Stmt.countAll TypedFn.clearRow.eliminateCopies.body = 2
      ∧ TypedFn.clearRow.eliminateCopies.eliminateCopies = TypedFn.clearRow.eliminateCopies
      ∧ ((Session.new none).performAll [.insertTyped .clearRow]).eliminateCopies.eliminateCopies
        = ((Session.new none).performAll [.insertTyped .clearRow]).eliminateCopies := by
  obtain ⟨hends, htwice, hsession⟩ := reaches_fixed_point
  refine ⟨(hends TypedFn.clearRow).resolve_left ?_, by decide +kernel, htwice _,
    (hsession none [.insertTyped .clearRow]).2.2⟩
  rintro ⟨hscalar, -⟩
  exact absurd hscalar (by decide +kernel)

end ArrayLang
