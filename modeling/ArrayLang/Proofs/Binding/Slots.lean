import ArrayLang.Proofs.Typing.Binding

/-!
# Every argument in its slot

When arguments fit the parameters of a function, and which argument is bound to which parameter. Each
positional parameter has a slot; several slots may have one name, and a keyword argument belongs to the
first of them.

While keywords are placed, the slots hold what the positional arguments and the keywords so far give
them, and a keyword is refused exactly if it has no slot or its slot holds something already. This
carries the induction over the keywords (`placeKeywords_eq_ok`).

## Main results

- `bindArgs_fits`: binding succeeds exactly when the arguments fit, and what it gives then.
-/

namespace ArrayLang.Binding

open Outcome

variable {α : Type} {func name : String} {params : Params} {nonlocals names : List String}
  {args : List α} {keywords before : List (String × α)} {value : α} {j : Nat}

/-- The keyword argument for slot `j`, if there is one. -/
def keywordAt? (names : List String) (keywords : List (String × α)) (j : Nat) : Option α :=
  (keywords.find? fun keyword => names.idxOf? keyword.1 = some j).map (·.2)

/-- The default value for slot `j`, if there is one. -/
def defaultAt? [Bindable α] (params : Params) (j : Nat) : Option α :=
  (params.positional[j]?.bind params.default?).map Bindable.ofLiteral

/-- What the slots hold once positional arguments and some keywords are placed. -/
def heldSlots (names : List String) (args : List α) (keywords : List (String × α)) :
    List (String × Option α) :=
  names.mapIdx fun j name => (name, args[j]?.or (keywordAt? names keywords j))

/-- Each of the keywords, which follow those in `before`, has a slot that neither a positional argument
nor a keyword before it belongs to. -/
def Placeable (names : List String) (args : List α) (before keywords : List (String × α)) : Prop :=
  ∀ (i : Nat) (keyword : String × α), keywords[i]? = some keyword →
    ∃ j, names.idxOf? keyword.1 = some j ∧ args.length ≤ j
      ∧ ∀ earlier ∈ before ++ keywords.take i, names.idxOf? earlier.1 ≠ some j

/-- The arguments fit the parameters: there is one for each nonlocal and none too many, each keyword has
a free slot, and each slot that stays empty has a default. -/
structure Fits (params : Params) (nonlocals : List String) (args : List α)
    (keywords : List (String × α)) : Prop where
  enough : nonlocals.length ≤ args.length
  noExtra : params.rest? = none → args.length ≤ nonlocals.length + params.positional.length
  placed (i : Nat) (keyword : String × α) (h : keywords[i]? = some keyword) :
    ∃ j, params.positional.idxOf? keyword.1 = some j ∧ args.length ≤ nonlocals.length + j
      ∧ ∀ earlier ∈ keywords.take i, params.positional.idxOf? earlier.1 ≠ some j
  defaulted (j : Nat) (name : String) (h : params.positional[j]? = some name)
    (hargs : args.length ≤ nonlocals.length + j)
    (hkeywords : ∀ keyword ∈ keywords, params.positional.idxOf? keyword.1 ≠ some j) :
    (params.default? name).isSome

/-! ## Nonlocals -/

theorem bindNonlocals_of_le (h : names.length ≤ args.length) :
    bindNonlocals func names args = .ok (names.zip args, args.drop names.length) := by
  induction names generalizing args with
  | nil => rfl
  | cons name names ih =>
    cases args with
    | nil => cases h
    | cons arg args =>
      rw [bindNonlocals, ih (Nat.le_of_succ_le_succ h)]
      rfl

theorem map_snd_zip (h : names.length ≤ args.length) :
    (names.zip args).map (·.2) = args.take names.length := by
  have hbind : bindNonlocals "" names args = .ok (names.zip args, args.drop names.length) :=
    bindNonlocals_of_le h
  have hargs := (bindNonlocals_eq_ok hbind).2
  conv at hargs => lhs; rw [← List.take_append_drop names.length args]
  exact (List.append_cancel_right hargs).symm

theorem length_le_of_bindNonlocals {r : List (String × α) × List α}
    (h : bindNonlocals func names args = .ok r) : names.length ≤ args.length := by
  obtain ⟨hnames, hargs⟩ := bindNonlocals_eq_ok h
  rw [← hnames, hargs, List.length_map, List.length_append, List.length_map]
  exact Nat.le_add_right _ _

/-! ## Keywords -/

theorem getElem?_of_idxOf? (h : names.idxOf? name = some j) : names[j]? = some name := by
  obtain ⟨hj, heq, -⟩ := List.findIdx?_eq_some_iff_getElem.1 h
  rw [List.getElem?_eq_getElem hj, beq_iff_eq.1 heq]

theorem keywordAt?_eq_none :
    keywordAt? names keywords j = none ↔ ∀ keyword ∈ keywords, names.idxOf? keyword.1 ≠ some j := by
  simp [keywordAt?, List.find?_eq_none]

theorem keywordAt?_concat :
    keywordAt? names (keywords ++ [(name, value)]) j = (keywordAt? names keywords j).or
      (if names.idxOf? name = some j then some value else none) := by
  unfold keywordAt?
  rw [List.find?_append, List.find?_singleton, Option.map_or]
  by_cases h : names.idxOf? name = some j
  · rw [if_pos (decide_eq_true h), if_pos h, Option.map_some]
  · rw [if_neg (by simpa using h), if_neg h, Option.map_none]

theorem getElem?_heldSlots :
    (heldSlots names args keywords)[j]?
      = names[j]?.map fun name => (name, args[j]?.or (keywordAt? names keywords j)) :=
  List.getElem?_mapIdx

theorem map_fst_heldSlots : (heldSlots names args keywords).map (·.1) = names := by
  refine List.ext_getElem? fun j => ?_
  rw [List.getElem?_map, getElem?_heldSlots, Option.map_map]
  exact Option.map_id_apply

/-- Before keywords are placed the slots hold the positional arguments. -/
theorem slots_eq_heldSlots : slots names args = heldSlots names args [] := by
  have hkeyword (names : List String) (j : Nat) :
      keywordAt? names ([] : List (String × α)) j = none := rfl
  simp only [heldSlots, hkeyword, Option.or_none]
  induction names generalizing args with
  | nil => rfl
  | cons name names ih =>
    rw [List.mapIdx_cons]
    cases args with
    | nil => rw [slots_cons_nil, ih]; rfl
    | cons arg args => rw [slots_cons_cons, ih]; rfl

/-- A keyword is placed in the first slot of its name if that is empty, and not at all otherwise. -/
theorem placeKeyword_eq_ok {held held' : List (String × Option α)} :
    placeKeyword func name value held = .ok held' ↔
      ∃ j, (held.map (·.1)).idxOf? name = some j ∧ held[j]? = some (name, none)
        ∧ held' = held.set j (name, some value) := by
  induction held generalizing held' with
  | nil => simp [placeKeyword]
  | cons slot rest ih =>
    obtain ⟨other, held?⟩ := slot
    rw [List.map_cons, List.idxOf?_cons]
    unfold placeKeyword
    by_cases hname : other = name
    · subst hname
      cases held? <;> simp [eq_comm]
    · rw [if_neg hname, map_eq_ok, if_neg (by simpa using hname)]
      simp only [ih, Option.map_eq_some_iff]
      constructor
      · rintro ⟨rest', ⟨j, hj, hempty, rfl⟩, rfl⟩
        exact ⟨j + 1, ⟨j, hj, rfl⟩, hempty, rfl⟩
      · rintro ⟨_, ⟨j, hj, rfl⟩, hempty, rfl⟩
        exact ⟨_, ⟨j, hj, hempty, rfl⟩, rfl⟩

/-- A keyword whose slot is empty fills this slot and no other. -/
theorem set_heldSlots (hslot : names.idxOf? name = some j) (hargs : args.length ≤ j)
    (hbefore : ∀ earlier ∈ before, names.idxOf? earlier.1 ≠ some j) :
    (heldSlots names args before).set j (name, some value)
      = heldSlots names args (before ++ [(name, value)]) := by
  refine List.ext_getElem? fun i => ?_
  rw [List.getElem?_set, getElem?_heldSlots, getElem?_heldSlots, keywordAt?_concat, hslot]
  by_cases hij : j = i
  · subst hij
    have hlength : j < (heldSlots names args before).length := by
      rw [← List.length_map (f := (·.1)), map_fst_heldSlots]
      exact (List.getElem?_eq_some_iff.1 (getElem?_of_idxOf? hslot)).1
    rw [if_pos rfl, if_pos hlength, if_pos rfl, getElem?_of_idxOf? hslot,
      List.getElem?_eq_none hargs, keywordAt?_eq_none.2 hbefore]
    rfl
  · rw [if_neg hij, if_neg (fun h => hij (Option.some.inj h)), Option.or_none]

/-- A keyword can be placed after others exactly when its slot is not taken. -/
theorem placeKeyword_heldSlots {held' : List (String × Option α)} :
    placeKeyword func name value (heldSlots names args before) = .ok held' ↔
      (∃ j, names.idxOf? name = some j ∧ args.length ≤ j
        ∧ ∀ earlier ∈ before, names.idxOf? earlier.1 ≠ some j)
      ∧ held' = heldSlots names args (before ++ [(name, value)]) := by
  rw [placeKeyword_eq_ok, map_fst_heldSlots]
  constructor
  · rintro ⟨j, hslot, hempty, rfl⟩
    rw [getElem?_heldSlots, getElem?_of_idxOf? hslot, Option.map_some, Option.some_inj,
      Prod.mk.injEq, Option.or_eq_none_iff, List.getElem?_eq_none_iff, keywordAt?_eq_none] at hempty
    obtain ⟨-, hargs, hbefore⟩ := hempty
    exact ⟨⟨j, hslot, hargs, hbefore⟩, set_heldSlots hslot hargs hbefore⟩
  · rintro ⟨⟨j, hslot, hargs, hbefore⟩, rfl⟩
    refine ⟨j, hslot, ?_, (set_heldSlots hslot hargs hbefore).symm⟩
    rw [getElem?_heldSlots, getElem?_of_idxOf? hslot, List.getElem?_eq_none hargs,
      keywordAt?_eq_none.2 hbefore]
    rfl

theorem placeable_cons {keyword : String × α} :
    Placeable names args before (keyword :: keywords) ↔
      (∃ j, names.idxOf? keyword.1 = some j ∧ args.length ≤ j
        ∧ ∀ earlier ∈ before, names.idxOf? earlier.1 ≠ some j)
      ∧ Placeable names args (before ++ [keyword]) keywords := by
  constructor
  · refine fun h => ⟨?_, fun i other hother => ?_⟩
    · simpa using h 0 keyword rfl
    · simpa using h (i + 1) other hother
  · rintro ⟨hfirst, hrest⟩ i other hother
    cases i with
    | zero =>
      obtain rfl := Option.some.inj hother
      simpa using hfirst
    | succ i => simpa using hrest i other hother

/-- Keywords are placed one after the other, each in a slot that is still empty. -/
theorem placeKeywords_eq_ok {held' : List (String × Option α)} :
    placeKeywords func (heldSlots names args before) keywords = .ok held' ↔
      Placeable names args before keywords
        ∧ held' = heldSlots names args (before ++ keywords) := by
  unfold placeKeywords
  induction keywords generalizing before with
  | nil =>
    have hnone : Placeable names args before [] := by
      intro i keyword h
      cases h
    rw [List.foldlM_nil, List.append_nil, and_iff_right hnone]
    exact ⟨fun h => by cases h; rfl, fun h => by rw [h]; rfl⟩
  | cons keyword keywords ih =>
    obtain ⟨name, value⟩ := keyword
    rw [List.foldlM_cons, bind_eq_ok, placeable_cons]
    simp only [placeKeyword_heldSlots]
    constructor
    · rintro ⟨_, ⟨hfirst, rfl⟩, hplaced⟩
      obtain ⟨hrest, rfl⟩ := ih.1 hplaced
      exact ⟨⟨hfirst, hrest⟩, by rw [List.append_assoc]; rfl⟩
    · rintro ⟨⟨hfirst, hrest⟩, rfl⟩
      exact ⟨_, ⟨hfirst, rfl⟩, ih.2 ⟨hrest, by rw [List.append_assoc]; rfl⟩⟩

/-! ## Defaults -/

variable [Bindable α]

/-- What a slot is bound to, if it holds something or has a default. -/
def slotBinding? (params : Params) (slot : String × Option α) : Option (String × α) :=
  (slot.2.or ((params.default? slot.1).map Bindable.ofLiteral)).map (slot.1, ·)

theorem fillSlot_eq_ok {slot : String × Option α} {entry : String × α} :
    fillSlot func params slot = .ok entry ↔ slotBinding? params slot = some entry := by
  obtain ⟨name, held?⟩ := slot
  cases held? with
  | some value => simp [fillSlot, slotBinding?]
  | none => cases h : params.default? name <;> simp [fillSlot, slotBinding?, h]

theorem isSome_slotBinding? {held? : Option α} :
    (slotBinding? params (name, held?)).isSome ↔ (held? = none → (params.default? name).isSome) := by
  cases held? <;> simp [slotBinding?]

theorem fillSlots_eq_ok_iff {held : List (String × Option α)} {filled : List (String × α)} :
    held.mapM (fillSlot func params) = .ok filled ↔
      held.map (slotBinding? params) = filled.map some := by
  rw [mapM_eq_ok, ← List.forall₂_eq_eq_eq, List.forall₂_map_left_iff, List.forall₂_map_right_iff]
  simp only [fillSlot_eq_ok]

theorem exists_fillSlots_iff {held : List (String × Option α)} :
    (∃ filled, held.mapM (fillSlot func params) = .ok filled) ↔
      ∀ slot ∈ held, (slotBinding? params slot).isSome := by
  simp only [fillSlots_eq_ok_iff]
  constructor
  · rintro ⟨filled, h⟩ slot hslot
    have hmem : slotBinding? params slot ∈ filled.map some := h ▸ List.mem_map_of_mem hslot
    obtain ⟨entry, -, hentry⟩ := List.mem_map.1 hmem
    rw [← hentry]
    rfl
  · intro h
    refine ⟨held.filterMap (slotBinding? params), ?_⟩
    induction held with
    | nil => rfl
    | cons slot held ih =>
      obtain ⟨hslot, hheld⟩ := List.forall_mem_cons.1 h
      obtain ⟨entry, hentry⟩ := Option.isSome_iff_exists.1 hslot
      rw [List.map_cons, List.filterMap_cons_some hentry, List.map_cons, hentry, ih hheld]

theorem map_fst_of_fillSlots {held : List (String × Option α)} {filled : List (String × α)}
    (h : held.mapM (fillSlot func params) = .ok filled) : filled.map (·.1) = held.map (·.1) := by
  have hnames : List.Forall₂ (fun entry slot => entry.1 = slot.1) filled held := by
    refine (mapM_eq_ok.1 h).flip.imp fun entry slot hentry => ?_
    obtain ⟨value, -, rfl⟩ := Option.map_eq_some_iff.1 (fillSlot_eq_ok.1 hentry)
    rfl
  rw [← List.forall₂_eq_eq_eq, List.forall₂_map_left_iff, List.forall₂_map_right_iff]
  exact hnames

omit [Bindable α] in
/-- What a list gives for the leading positions and `f` for the others. -/
theorem map_range_or (f : Nat → Option α) (n : Nat) :
    (List.range n).map (fun j => args[j]?.or (f j))
      = (args.take n).map some ++ ((List.range n).drop args.length).map f := by
  conv => lhs; rw [← List.take_append_drop args.length (List.range n), List.map_append]
  refine congrArg₂ (· ++ ·) (List.ext_getElem? fun j => ?_) (List.map_congr_left fun j hj => ?_)
  · rw [List.getElem?_map, List.getElem?_map, List.getElem?_take, List.getElem?_take]
    by_cases hj : j < args.length <;> by_cases hn : j < n <;> simp [hj, hn]
  · obtain ⟨i, hi, rfl⟩ := List.getElem_of_mem hj
    have hle : args.length ≤ ((List.range n).drop args.length)[i] := by simp
    rw [List.getElem?_eq_none hle, Option.none_or]

/-- The slots take the positional arguments while there are any, and a keyword or a default each after
that. -/
theorem values_of_fillSlots {filled : List (String × α)}
    (h : (heldSlots params.positional args keywords).mapM (fillSlot func params) = .ok filled) :
    ∃ more, filled.map (·.2) = args.take params.positional.length ++ more
      ∧ more.map some = ((List.range params.positional.length).drop args.length).map fun j =>
          (keywordAt? params.positional keywords j).or (defaultAt? params j) := by
  have hvalues : filled.map (fun entry => some entry.2)
      = (List.range params.positional.length).map fun j =>
          args[j]?.or ((keywordAt? params.positional keywords j).or (defaultAt? params j)) := by
    have hfilled := congrArg (List.map (Option.map (·.2))) (fillSlots_eq_ok_iff.1 h)
    rw [List.map_map, List.map_map] at hfilled
    refine hfilled.symm.trans (List.ext_getElem? fun j => ?_)
    rw [List.getElem?_map, getElem?_heldSlots, List.getElem?_map]
    cases hname : params.positional[j]? with
    | none =>
      have hrange : (List.range params.positional.length)[j]? = none := by simpa using hname
      rw [hrange]
      rfl
    | some name =>
      have hj : j < params.positional.length := (List.getElem?_eq_some_iff.1 hname).1
      rw [List.getElem?_range hj]
      simp only [Option.map_some, Function.comp, slotBinding?, Option.map_map, defaultAt?, hname,
        Option.bind_some, Option.or_assoc]
      exact congrArg some Option.map_id_apply
  rw [map_range_or] at hvalues
  obtain ⟨leading, more, rfl, hleading, hmore⟩ := List.map_eq_append_iff.1 hvalues
  refine ⟨more.map (·.2), ?_, by rw [List.map_map]; exact hmore⟩
  have hargs : leading.map (·.2) = args.take params.positional.length := by
    refine List.map_injective_iff.2 (fun _ _ heq => Option.some.inj heq) ?_
    rw [List.map_map]
    exact hleading
  rw [List.map_append, hargs]

/-! ## Binding -/

/-- Binding succeeds when each of its steps does. -/
theorem bindArgs_eq_ok_iff {bound : List (String × α)} :
    bindArgs func params nonlocals args keywords = .ok bound ↔
      nonlocals.length ≤ args.length
        ∧ (params.rest? = none → args.length ≤ nonlocals.length + params.positional.length)
        ∧ Placeable params.positional (args.drop nonlocals.length) [] keywords
        ∧ ∃ filled, (heldSlots params.positional (args.drop nonlocals.length) keywords).mapM
            (fillSlot func params) = .ok filled
          ∧ bound = nonlocals.zip args ++ filled ++ params.rest?.toList.map fun name =>
              (name, Bindable.ofRest (args.drop (nonlocals.length + params.positional.length))) := by
  have hextra : (!(args.drop (nonlocals.length + params.positional.length)).isEmpty
        && params.rest?.isNone) = true
      ↔ ¬(params.rest? = none → args.length ≤ nonlocals.length + params.positional.length) := by
    cases params.rest? <;> simp
  unfold bindArgs
  constructor
  · intro h
    obtain ⟨⟨captured, left⟩, hcaptured, h⟩ := bind_eq_ok.1 h
    have hle := length_le_of_bindNonlocals hcaptured
    rw [bindNonlocals_of_le hle] at hcaptured
    cases hcaptured
    simp only [List.drop_drop] at h
    split at h
    · cases h
    · rename_i hnot
      obtain ⟨held, hheld, h⟩ := bind_eq_ok.1 h
      rw [slots_eq_heldSlots, placeKeywords_eq_ok] at hheld
      obtain ⟨hplaceable, rfl⟩ := hheld
      obtain ⟨filled, hfilled, h⟩ := bind_eq_ok.1 h
      cases h
      exact ⟨hle, not_not.1 (hextra.not.1 hnot), hplaceable, filled, hfilled, rfl⟩
  · rintro ⟨hle, hnoExtra, hplaceable, filled, hfilled, rfl⟩
    refine bind_eq_ok.2 ⟨_, bindNonlocals_of_le hle, ?_⟩
    simp only [List.drop_drop]
    rw [if_neg (hextra.not.2 (not_not.2 hnoExtra)), slots_eq_heldSlots]
    exact bind_eq_ok.2 ⟨_, placeKeywords_eq_ok.2 ⟨hplaceable, rfl⟩,
      bind_eq_ok.2 ⟨filled, hfilled, rfl⟩⟩

/-- The arguments fit when each nonlocal has one, none is left over, the keywords can be placed, and the
slots that are empty then have defaults. -/
theorem fits_iff (func : String) :
    Fits params nonlocals args keywords ↔
      nonlocals.length ≤ args.length
        ∧ (params.rest? = none → args.length ≤ nonlocals.length + params.positional.length)
        ∧ Placeable params.positional (args.drop nonlocals.length) [] keywords
        ∧ ∃ filled, (heldSlots params.positional (args.drop nonlocals.length) keywords).mapM
            (fillSlot func params) = .ok filled := by
  have hfree (hle : nonlocals.length ≤ args.length) (j : Nat) :
      (args.drop nonlocals.length).length ≤ j ↔ args.length ≤ nonlocals.length + j := by
    rw [List.length_drop]
    omega
  rw [exists_fillSlots_iff]
  constructor
  · rintro ⟨hle, hnoExtra, hplaced, hdefaulted⟩
    refine ⟨hle, hnoExtra, fun i keyword h => ?_, fun slot hslot => ?_⟩
    · obtain ⟨j, hslot, hargs, hearlier⟩ := hplaced i keyword h
      exact ⟨j, hslot, (hfree hle j).2 hargs, hearlier⟩
    · obtain ⟨j, hj⟩ := List.getElem?_of_mem hslot
      rw [getElem?_heldSlots, Option.map_eq_some_iff] at hj
      obtain ⟨name, hname, rfl⟩ := hj
      refine isSome_slotBinding?.2 fun hempty => ?_
      rw [Option.or_eq_none_iff, List.getElem?_eq_none_iff, keywordAt?_eq_none] at hempty
      exact hdefaulted j name hname ((hfree hle j).1 hempty.1) hempty.2
  · rintro ⟨hle, hnoExtra, hplaceable, hfill⟩
    refine ⟨hle, hnoExtra, fun i keyword h => ?_, fun j name hname hargs hkeywords => ?_⟩
    · obtain ⟨j, hslot, hargs, hearlier⟩ := hplaceable i keyword h
      exact ⟨j, hslot, (hfree hle j).1 hargs, hearlier⟩
    · have hslot : (name, (args.drop nonlocals.length)[j]?.or
          (keywordAt? params.positional keywords j))
            ∈ heldSlots params.positional (args.drop nonlocals.length) keywords :=
        List.mem_of_getElem? (getElem?_heldSlots.trans (by rw [hname]; rfl))
      refine isSome_slotBinding?.1 (hfill _ hslot) ?_
      rw [Option.or_eq_none_iff, List.getElem?_eq_none_iff, keywordAt?_eq_none]
      exact ⟨(hfree hle j).2 hargs, hkeywords⟩

/-- Binding succeeds exactly when the arguments fit. The names that are bound are the nonlocals, the
positional parameters and the parameter that collects the rest, in this order. The leading ones have the
positional arguments in order, the slots that are left a keyword or a default each, and the last one all
further arguments. -/
theorem bindArgs_fits (func : String) (params : Params) (nonlocals : List String) (args : List α)
    (keywords : List (String × α)) :
    ((∃ bound, bindArgs func params nonlocals args keywords = .ok bound) ↔
        Fits params nonlocals args keywords)
      ∧ ∀ bound, bindArgs func params nonlocals args keywords = .ok bound →
        bound.map (·.1) = nonlocals ++ params.positional ++ params.rest?.toList
          ∧ ∃ more, bound.map (·.2)
              = args.take (nonlocals.length + params.positional.length) ++ more
                ++ params.rest?.toList.map (fun _ =>
                  Bindable.ofRest (args.drop (nonlocals.length + params.positional.length)))
            ∧ more.map some = ((List.range params.positional.length).drop
                (args.length - nonlocals.length)).map fun j =>
                  (keywordAt? params.positional keywords j).or (defaultAt? params j) := by
  constructor
  · rw [fits_iff func]
    simp only [bindArgs_eq_ok_iff]
    constructor
    · rintro ⟨_, hle, hnoExtra, hplaceable, filled, hfilled, rfl⟩
      exact ⟨hle, hnoExtra, hplaceable, filled, hfilled⟩
    · rintro ⟨hle, hnoExtra, hplaceable, filled, hfilled⟩
      exact ⟨_, hle, hnoExtra, hplaceable, filled, hfilled, rfl⟩
  · intro bound h
    obtain ⟨hle, -, -, filled, hfilled, rfl⟩ := bindArgs_eq_ok_iff.1 h
    obtain ⟨more, hvalues, hmore⟩ := values_of_fillSlots hfilled
    refine ⟨?_, more, ?_, by rw [← List.length_drop]; exact hmore⟩
    · rw [List.map_append, List.map_append, map_fst_of_fillSlots hfilled, map_fst_heldSlots,
        List.map_fst_zip hle, List.map_map]
      exact congrArg _ (List.map_id _)
    · rw [List.map_append, List.map_append, hvalues, map_snd_zip hle, List.map_map, List.take_add]
      simp only [List.append_assoc]
      rfl

/-- `fn f[k](x, x = true, y, *rest)` on one argument: a keyword `x` is for the first slot of that name,
the second one is left to its default, and a further keyword `x` is refused though that slot is empty. -/
theorem bindArgs_fits_repeated :
    let params : Params := ⟨["x", "x", "y"], [("x", .bool true)], some "rest"⟩
    let bound := [("k", Ty.int64), ("x", .none), ("x", .bool), ("y", .tuple []), ("rest", .tuple [])]
    Fits params ["k"] [Ty.int64] [("y", .tuple []), ("x", .none)]
      ∧ bindArgs "f" params ["k"] [Ty.int64] [("y", .tuple []), ("x", .none)] = .ok bound
      ∧ bound.map (·.1) = ["k", "x", "x", "y", "rest"]
      ∧ ¬Fits params ["k"] [Ty.int64] [("y", .tuple []), ("x", .none), ("x", .none)] := by
  intro params bound
  have hok := bindArgs_fits "f" params ["k"] [Ty.int64] [("y", .tuple []), ("x", .none)]
  have hagain := bindArgs_fits "f" params ["k"] [Ty.int64]
    [("y", .tuple []), ("x", .none), ("x", .none)]
  refine ⟨hok.1.1 ⟨bound, rfl⟩, rfl, (hok.2 bound rfl).1, fun h => ?_⟩
  obtain ⟨_, hbound⟩ := hagain.1.2 h
  cases hbound

end ArrayLang.Binding
