import ArrayLang.Binding
import ArrayLang.Proofs.Outcome

/-!
# What binding gives

Binding positional arguments gives every parameter of the function in order. What is bound is an
argument, a default, or the collection of the further arguments, and the leading parameters are
bound to the leading arguments.
-/

namespace ArrayLang.Binding

open Outcome

variable {α : Type} {func : String} {params : Params} {nonlocals names : List String}
  {args left : List α}

/-- Nonlocals take the leading arguments. -/
theorem bindNonlocals_eq_ok {bound : List (String × α)}
    (h : bindNonlocals func names args = .ok (bound, left)) :
    bound.map (·.1) = names ∧ args = bound.map (·.2) ++ left := by
  induction names generalizing args bound with
  | nil =>
    cases h
    exact ⟨rfl, rfl⟩
  | cons name names ih =>
    cases args with
    | nil => cases h
    | cons arg args =>
      obtain ⟨⟨rest, left'⟩, hrest, h⟩ := bind_eq_ok.1 h
      cases h
      obtain ⟨hnames, hargs⟩ := ih hrest
      rw [List.map_cons, List.map_cons, hnames, hargs]
      exact ⟨rfl, rfl⟩

theorem slots_nil : slots ([] : List String) args = [] :=
  rfl

theorem slots_cons_cons {name : String} {arg : α} :
    slots (name :: names) (arg :: args) = (name, some arg) :: slots names args := by
  simp [slots]

theorem slots_cons_nil {name : String} :
    slots (name :: names) ([] : List α) = (name, none) :: slots names [] := by
  simp [slots, List.replicate_succ]

variable [Bindable α]

/-- Where a bound value comes from. -/
def FromArgs (args : List α) (value : α) : Prop :=
  value ∈ args ∨ (∃ lit, value = Bindable.ofLiteral lit) ∨ ∃ xs, (∀ x ∈ xs, x ∈ args) ∧
    value = Bindable.ofRest xs

theorem FromArgs.mono {args' : List α} {value : α} (h : FromArgs args value)
    (hsub : ∀ x ∈ args, x ∈ args') : FromArgs args' value := by
  obtain h | h | ⟨xs, hxs, h⟩ := h
  · exact .inl (hsub value h)
  · exact .inr (.inl h)
  · exact .inr (.inr ⟨xs, fun x hx => hsub x (hxs x hx), h⟩)

/-- A slot that holds nothing is filled from the defaults. -/
theorem fillSlot_none {name : String} {entry : String × α}
    (h : fillSlot func params (name, none) = .ok entry) :
    entry.1 = name ∧ ∃ lit, entry.2 = Bindable.ofLiteral lit := by
  simp only [fillSlot] at h
  split at h
  · cases h
    exact ⟨rfl, _, rfl⟩
  · cases h

/-- Positional parameters take arguments while there are any, and defaults after that. -/
theorem fillSlots_eq_ok {filled : List (String × α)}
    (h : (slots names args).mapM (fillSlot func params) = .ok filled) :
    filled.map (·.1) = names ∧ ∃ more : List α,
      filled.map (·.2) = args.take names.length ++ more
        ∧ ∀ value ∈ more, ∃ lit, value = Bindable.ofLiteral lit := by
  rw [mapM_eq_ok] at h
  induction names generalizing args filled with
  | nil =>
    rw [slots_nil, List.forall₂_nil_left_iff] at h
    rw [h]
    exact ⟨rfl, [], rfl, fun _ h => (List.not_mem_nil h).elim⟩
  | cons name names ih =>
    cases args with
    | nil =>
      rw [slots_cons_nil] at h
      cases h with
      | cons hentry hrest =>
        obtain ⟨hname, hlit⟩ := fillSlot_none hentry
        obtain ⟨hnames, more, hmore, hlits⟩ := ih hrest
        rw [List.take_nil, List.nil_append] at hmore
        rw [List.map_cons, List.map_cons, hname, hnames, hmore]
        exact ⟨rfl, _, rfl, List.forall_mem_cons.2 ⟨hlit, hlits⟩⟩
    | cons arg args =>
      rw [slots_cons_cons] at h
      cases h with
      | cons hentry hrest =>
        cases hentry
        obtain ⟨hnames, more, hmore, hlits⟩ := ih hrest
        rw [List.map_cons, List.map_cons, hnames, hmore]
        exact ⟨rfl, more, rfl, hlits⟩

/-- Parameters that are left out take their defaults. -/
theorem fillSlots_defaults {defaults : List Literal} (hmany : args.length ≤ names.length)
    (hdefaults : (names.drop args.length).map params.default? = defaults.map some) :
    (slots names args).mapM (fillSlot func params)
      = .ok (names.zip (args ++ defaults.map Bindable.ofLiteral)) := by
  induction names generalizing args defaults with
  | nil =>
    obtain rfl := List.eq_nil_of_length_eq_zero (Nat.le_zero.1 hmany)
    rfl
  | cons name names ih =>
    cases args with
    | nil =>
      obtain ⟨lit, defaults, rfl⟩ : ∃ lit rest, defaults = lit :: rest := by
        cases defaults with
        | nil => cases hdefaults
        | cons lit rest => exact ⟨lit, rest, rfl⟩
      obtain ⟨hdefault, hdefaults⟩ := List.cons.inj hdefaults
      have hfill : fillSlot func params (name, (none : Option α))
          = .ok (name, Bindable.ofLiteral lit) := by
        rw [fillSlot, hdefault]
      have hrest : (slots names ([] : List α)).mapM (fillSlot func params)
          = .ok (names.zip (defaults.map Bindable.ofLiteral)) := ih (Nat.zero_le _) hdefaults
      rw [slots_cons_nil, List.mapM_cons, hfill, hrest]
      rfl
    | cons arg args =>
      have hrest := ih (Nat.le_of_succ_le_succ hmany) hdefaults
      rw [slots_cons_cons, List.mapM_cons, hrest]
      rfl

/-- Binding arguments and defaults to the parameters of a function that takes nothing else. -/
theorem bindArgs_defaults {defaults : List Literal} (hrest : params.rest? = none)
    (hmany : args.length ≤ params.positional.length)
    (hdefaults : (params.positional.drop args.length).map params.default? = defaults.map some) :
    bindArgs func params [] args []
      = .ok (params.positional.zip (args ++ defaults.map Bindable.ofLiteral)) := by
  have hfilled : (slots params.positional args).mapM (fillSlot func params) = _ :=
    fillSlots_defaults hmany hdefaults
  refine bind_eq_ok.2 ⟨([], args), rfl, ?_⟩
  simp only [List.drop_eq_nil_of_le hmany, List.isEmpty_nil, Bool.not_true, Bool.false_and,
    Bool.false_eq_true, if_false]
  refine bind_eq_ok.2 ⟨_, rfl, bind_eq_ok.2 ⟨_, hfilled, ?_⟩⟩
  rw [hrest, Option.toList_none, List.map_nil, List.append_nil]
  rfl

/-- What binding gives: the values of the nonlocals, of the positional parameters and of the
parameter that collects the rest. -/
theorem bindArgs_eq_ok {bound : List (String × α)}
    (h : bindArgs func params nonlocals args [] = .ok bound) :
    bound.map (·.1) = nonlocals ++ params.names ∧ ∃ more rest : List α,
      bound.map (·.2)
          = args.take (nonlocals.length + params.positional.length) ++ (more ++ rest)
        ∧ (∀ value ∈ more, ∃ lit, value = Bindable.ofLiteral lit)
        ∧ ∀ value ∈ rest, ∃ xs, (∀ x ∈ xs, x ∈ args) ∧ value = Bindable.ofRest xs := by
  obtain ⟨⟨captured, left⟩, hcaptured, h⟩ := bind_eq_ok.1 h
  obtain ⟨hnonlocals, hargs⟩ := bindNonlocals_eq_ok hcaptured
  have hlen : captured.length = nonlocals.length := by
    rw [← hnonlocals, List.length_map]
  simp only at h
  split at h
  · cases h
  · obtain ⟨_, hslots, h⟩ := bind_eq_ok.1 h
    cases hslots
    obtain ⟨filled, hfilled, h⟩ := bind_eq_ok.1 h
    obtain ⟨hpositional, more, hmore, hlits⟩ := fillSlots_eq_ok hfilled
    cases h
    refine ⟨?_, more,
      params.rest?.toList.map fun _ => Bindable.ofRest (left.drop params.positional.length),
      ?_, hlits, ?_⟩
    · rw [List.map_append, List.map_append, hnonlocals, hpositional, List.map_map,
        List.append_assoc]
      exact congrArg _ (congrArg _ (List.map_id _))
    · have htake : args.take (nonlocals.length + params.positional.length)
          = captured.map (·.2) ++ left.take params.positional.length := by
        rw [hargs, ← hlen, ← List.length_map (f := (·.2)), List.take_length_add_append]
      rw [List.map_append, List.map_append, hmore, htake, List.map_map]
      simp only [List.append_assoc]
      rfl
    · intro value hvalue
      obtain ⟨_, -, rfl⟩ := List.mem_map.1 hvalue
      refine ⟨_, fun x hx => ?_, rfl⟩
      rw [hargs]
      exact List.mem_append_right _ (List.mem_of_mem_drop hx)

/-- Every parameter is bound, in order. -/
theorem bindArgs_names {bound : List (String × α)}
    (h : bindArgs func params nonlocals args [] = .ok bound) :
    bound.map (·.1) = nonlocals ++ params.names :=
  (bindArgs_eq_ok h).1

theorem bindArgs_fromArgs {bound : List (String × α)}
    (h : bindArgs func params nonlocals args [] = .ok bound) :
    ∀ value ∈ bound.map (·.2), FromArgs args value := by
  obtain ⟨-, more, rest, hvalues, hmore, hrest⟩ := bindArgs_eq_ok h
  intro value hvalue
  rw [hvalues] at hvalue
  rcases List.mem_append.1 hvalue with hvalue | hvalue
  · exact .inl (List.mem_of_mem_take hvalue)
  · rcases List.mem_append.1 hvalue with hvalue | hvalue
    · exact .inr (.inl (hmore value hvalue))
    · exact .inr (.inr (hrest value hvalue))

/-- The leading arguments are bound as they are. -/
theorem bindArgs_take {bound : List (String × α)} {n : Nat}
    (h : bindArgs func params nonlocals args [] = .ok bound) (hargs : n ≤ args.length)
    (hn : n ≤ nonlocals.length + params.positional.length) :
    (bound.map (·.2)).take n = args.take n := by
  obtain ⟨-, more, rest, hvalues, -⟩ := bindArgs_eq_ok h
  rw [hvalues, List.take_append_of_le_length, List.take_take, Nat.min_eq_left hn]
  rw [List.length_take]
  omega

/-! ## Like arguments -/

section
variable {β : Type} [Bindable β] {R : α → β → Prop}

/-- The names are equal and what is bound to them is related. -/
def EntryRel (R : α → β → Prop) (a : String × α) (b : String × β) : Prop :=
  b.1 = a.1 ∧ R a.2 b.2

omit [Bindable α] [Bindable β] in
theorem bindNonlocals_alike {as : List α} {bs : List β} (hab : List.Forall₂ R as bs) :
    Alike (fun l r => List.Forall₂ (EntryRel R) l.1 r.1 ∧ List.Forall₂ R l.2 r.2)
      (bindNonlocals func names as) (bindNonlocals func names bs) := by
  induction names generalizing as bs with
  | nil => exact .ok ⟨.nil, hab⟩
  | cons name names ih =>
    cases hab with
    | nil => exact .error _
    | cons h hab =>
      exact (ih hab).bind fun l r hlr => .ok ⟨.cons ⟨rfl, h⟩ hlr.1, hlr.2⟩

omit [Bindable α] [Bindable β] in
theorem slots_rel {as : List α} {bs : List β} (hab : List.Forall₂ R as bs) :
    List.Forall₂ (EntryRel (Option.Rel R)) (slots names as) (slots names bs) := by
  induction names generalizing as bs with
  | nil => exact .nil
  | cons name names ih =>
    cases hab with
    | nil =>
      rw [slots_cons_nil, slots_cons_nil]
      exact .cons ⟨rfl, .none⟩ (ih .nil)
    | cons h hab =>
      rw [slots_cons_cons, slots_cons_cons]
      exact .cons ⟨rfl, .some h⟩ (ih hab)

omit [Bindable α] [Bindable β] in
/-- A keyword is placed in the same slot, or refused for the same reason. -/
theorem placeKeyword_alike {name : String} {a : α} {b : β} (hab : R a b)
    {held : List (String × Option α)} {held' : List (String × Option β)}
    (h : List.Forall₂ (EntryRel (Option.Rel R)) held held') :
    Alike (List.Forall₂ (EntryRel (Option.Rel R))) (placeKeyword func name a held)
      (placeKeyword func name b held') := by
  induction h with
  | nil => exact .error _
  | @cons slot slot' rest rest' hslot hrest ih =>
    obtain ⟨slot, value?⟩ := slot
    obtain ⟨slot', value?'⟩ := slot'
    obtain ⟨heq, hvalue⟩ := hslot
    obtain rfl : slot' = slot := heq
    unfold placeKeyword
    by_cases hname : slot' = name
    · rw [if_pos hname, if_pos hname]
      cases hvalue with
      | some _ => exact .error _
      | none => exact .ok (.cons ⟨rfl, .some hab⟩ hrest)
    · rw [if_neg hname, if_neg hname]
      exact ih.bind fun _ _ hplaced => .ok (.cons ⟨rfl, hvalue⟩ hplaced)

omit [Bindable α] [Bindable β] in
theorem placeKeywords_alike {ks : List (String × α)} {ls : List (String × β)}
    (hkeywords : List.Forall₂ (EntryRel R) ks ls) {held : List (String × Option α)}
    {held' : List (String × Option β)}
    (h : List.Forall₂ (EntryRel (Option.Rel R)) held held') :
    Alike (List.Forall₂ (EntryRel (Option.Rel R))) (placeKeywords func held ks)
      (placeKeywords func held' ls) := by
  unfold placeKeywords
  induction hkeywords generalizing held held' with
  | nil => exact .ok h
  | @cons k l ks ls hkl _ ih =>
    obtain ⟨name, a⟩ := k
    obtain ⟨name', b⟩ := l
    obtain ⟨heq, hab⟩ := hkl
    obtain rfl : name' = name := heq
    rw [List.foldlM_cons, List.foldlM_cons]
    exact (placeKeyword_alike hab h).bind fun _ _ hplaced => ih hplaced

theorem fillSlot_alike (hlit : ∀ lit, R (Bindable.ofLiteral lit) (Bindable.ofLiteral lit))
    {slot : String × Option α} {slot' : String × Option β}
    (h : EntryRel (Option.Rel R) slot slot') :
    Alike (EntryRel R) (fillSlot func params slot) (fillSlot func params slot') := by
  obtain ⟨name, held⟩ := slot
  obtain ⟨name', held'⟩ := slot'
  obtain ⟨heq, hheld⟩ := h
  obtain rfl : name' = name := heq
  cases hheld with
  | some h => exact .ok ⟨rfl, h⟩
  | none =>
    unfold fillSlot
    dsimp only
    cases params.default? name' with
    | some lit => exact .ok ⟨rfl, hlit lit⟩
    | none => exact .error _

/-- Related arguments are bound to the same parameters, or do not fit them for the same reason. -/
theorem bindArgs_alike (hlit : ∀ lit, R (Bindable.ofLiteral lit) (Bindable.ofLiteral lit))
    (hrest : ∀ as bs, List.Forall₂ R as bs → R (Bindable.ofRest as) (Bindable.ofRest bs))
    {as : List α} {bs : List β} (hab : List.Forall₂ R as bs) {ks : List (String × α)}
    {ls : List (String × β)} (hkeywords : List.Forall₂ (EntryRel R) ks ls) :
    Alike (List.Forall₂ (EntryRel R)) (bindArgs func params nonlocals as ks)
      (bindArgs func params nonlocals bs ls) := by
  unfold bindArgs
  refine (bindNonlocals_alike hab).bind fun l r hlr => ?_
  obtain ⟨captured, left⟩ := l
  obtain ⟨captured', left'⟩ := r
  obtain ⟨hcaptured, hleft⟩ := hlr
  have hextra := List.forall₂_drop params.positional.length hleft
  have hempty : (left'.drop params.positional.length).isEmpty
      = (left.drop params.positional.length).isEmpty := by
    rw [Bool.eq_iff_iff, List.isEmpty_iff_length_eq_zero, List.isEmpty_iff_length_eq_zero,
      hextra.length_eq]
  dsimp only
  rw [hempty, hextra.length_eq]
  split
  · exact .error _
  · refine (placeKeywords_alike hkeywords (slots_rel hleft)).bind fun held held' hheld => ?_
    refine (Alike.mapM hheld fun _ _ => fillSlot_alike hlit).bind
      fun filled filled' hfilled => .ok ?_
    refine List.rel_append (List.rel_append hcaptured hfilled) ?_
    rw [List.forall₂_map_left_iff, List.forall₂_map_right_iff]
    exact List.forall₂_same.2 fun _ _ => ⟨rfl, hrest _ _ hextra⟩

end
end ArrayLang.Binding
