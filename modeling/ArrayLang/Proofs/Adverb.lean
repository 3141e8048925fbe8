import ArrayLang.Proofs.Storage.Run

/-!
# Adverbs on paired values

Adverbs that call alike functions on arguments that stand for each other are alike: they make the
same calls, and their results stand for each other.
-/

namespace ArrayLang.Adverb

open Pairing Value

variable {κ ε α β : Type} {J : κ → Prop} {ρ : Pairing} {s t : Store} {v w : Value}
  {as bs : List Value}

/-! ## Arguments and results of calls -/

/-- One of the arguments is an array, along which the adverb runs. -/
def HasArray (args : List Value) : Prop :=
  ∃ v, .array v ∈ args

/-- How an argument changes what is known of the length of the axis. -/
def axisStep (axis : Nat) (len? : Option Nat) : Value → Except AdverbError (Option Nat)
  | .array v =>
    if v.rank ≤ axis then .error (.axisOutOfRange axis v.rank)
    else
      let found := v.shape.getD axis 0
      match len? with
      | Option.none => .ok (some found)
      | some expected =>
        if expected = found then .ok len? else .error (.shapeMismatch axis expected found)
  | _ => .ok len?

theorem axisLen_eq_foldlM (axis : Nat) (args : List Value) :
    axisLen axis args = args.foldlM (axisStep axis) Option.none :=
  rfl

/-- Once an argument is an array, the axis has a length. -/
theorem axisStep_eq_none {axis : Nat} {len? : Option Nat} {v : Value}
    (h : axisStep axis len? v = .ok Option.none) :
    len? = Option.none ∧ ∀ view, v ≠ .array view := by
  unfold axisStep at h
  split at h
  · split at h
    · cases h
    · cases len? with
      | none => cases h
      | some expected =>
        dsimp only at h
        split at h <;> cases h
  · rename_i hnot
    exact ⟨Except.ok.inj h, hnot⟩

theorem not_hasArray_of_axisLen {axis : Nat} {args : List Value}
    (h : axisLen axis args = .ok Option.none) : ¬HasArray args := by
  rw [axisLen_eq_foldlM] at h
  have hfold : ∀ (args : List Value) (len? : Option Nat),
      args.foldlM (axisStep axis) len? = .ok Option.none → len? = Option.none ∧ ¬HasArray args := by
    intro args
    induction args with
    | nil => exact fun len? h => ⟨Except.ok.inj h, fun ⟨_, hmem⟩ => nomatch hmem⟩
    | cons v args ih =>
      intro len? h
      rw [List.foldlM_cons, Outcome.bind_eq_ok] at h
      obtain ⟨next?, hstep, hrest⟩ := h
      obtain ⟨rfl, hargs⟩ := ih next? hrest
      obtain ⟨hlen, hv⟩ := axisStep_eq_none hstep
      refine ⟨hlen, fun ⟨view, hmem⟩ => ?_⟩
      rcases List.mem_cons.1 hmem with heq | hmem
      · exact hv view heq.symm
      · exact hargs ⟨view, hmem⟩
  exact (hfold args Option.none h).2

theorem axisLen_paired (h : PairedAll ρ as bs) (axis : Nat) : axisLen axis bs = axisLen axis as := by
  refine h.foldlM_eq (fun h => ?_) Option.none
  cases h <;> rfl

theorem axisOf_paired (h : v.Paired ρ w) : axisOf w = axisOf v := by
  cases h <;> rfl

theorem sliceArg_paired (hs : ρ.Matches s t) (axis i : Nat) (h : v.Paired ρ w) :
    (sliceArg s axis i v).Paired ρ (sliceArg t axis i w) := by
  cases h with
  | array hc => exact ofView_paired (v := View.indexAxis _ axis i) hs hc
  | none => exact .none
  | scalar x => exact .scalar x
  | tuple h => exact .tuple h
  | struct name h => exact .struct name h
  | slice x => exact .slice x
  | closure func h => exact .closure func h
  | op o => exact .op o
  | host id name h => exact .host id name h

theorem elementLayout_paired (hs : ρ.Matches s t) (h : v.Paired ρ w) :
    elementLayout t w = elementLayout s v := by
  have htext := h.text hs
  cases h with
  | scalar x => rfl
  | array h => rfl
  | _ =>
    unfold elementLayout
    dsimp only
    rw [htext]

theorem writeSlot_alike (hs : ρ.Matches s t) {slot : View} {c : Nat} (hslot : ρ slot.block c)
    (h : v.Paired ρ w) :
    Outcome.Alike (fun f g => Evolves ρ s t ρ (f s) (g t)) (writeSlot slot v s)
      (writeSlot (slot.on c) w t) := by
  have htext := h.text hs
  cases h with
  | scalar x => exact .ok (View.fill_on hs hslot x)
  | array hsrc => exact (setCells_alike hs hslot hsrc).mapError _
  | _ =>
    unfold writeSlot
    dsimp only
    rw [htext]
    exact .error _

theorem firstLayout_paired (h : PairedAll ρ as bs) : firstLayout bs = firstLayout as := by
  unfold firstLayout
  induction as generalizing bs with
  | nil =>
    cases h
    rfl
  | cons a as ih =>
    cases h with
    | cons h hs =>
      have hrest := ih hs
      cases h with
      | array h => rfl
      | _ => exact hrest

/-! ## Stacking -/

/-- A view stands for the same view of a paired block. -/
def Stands (ρ : Pairing) (v w : View) : Prop :=
  ∃ c, ρ v.block c ∧ w = v.on c

theorem Stands.mono {ρ' : Pairing} {v w : View} (h : Stands ρ v w) (hle : ρ ≤ ρ') :
    Stands ρ' v w := by
  obtain ⟨c, hc, heq⟩ := h
  exact ⟨c, hle _ _ hc, heq⟩

/-- Arrays of zeros stand for each other by way of their new blocks. -/
theorem zeros_alike (elt : ElemType) (shape : List Nat) :
    Run.Alike J ρ (fun ρ' => Stands (ρ'.without ρ)) (Run.make (View.zeros elt shape) : Run κ ε View)
      (Run.make (View.zeros elt shape)) := by
  refine .make fun s t hs => ?_
  have hzeros := View.zeros_alike hs elt shape
  exact ⟨_, hzeros.evolves, _, ⟨.inr ⟨rfl, rfl⟩, hzeros.new⟩, hzeros.same⟩

theorem store_alike {slot slot' : View} (hslot : Stands ρ slot slot') (h : v.Paired ρ w) :
    Run.Alike J ρ (fun _ _ _ => True) (store slot v : Run κ (AdverbStop ε) Unit)
      (store slot' w) := by
  obtain ⟨c, hc, rfl⟩ := hslot
  refine .attempt _ fun s t hs => (writeSlot_alike hs hc h).map fun f g hfg => ?_
  exact ⟨ρ, hfg, trivial⟩

/-- The relation holds on in larger pairings. -/
def Persists (R : Pairing → α → β → Prop) : Prop :=
  ∀ ρ ρ' a b, ρ ≤ ρ' → R ρ a b → R ρ' a b

/-- Stacking alike results of steps that keep a relation between their states. The stacked array lies
in new storage. -/
theorem stackResults_alike {R : Pairing → α → β → Prop} (hR : Persists R) (axis len : Nat)
    {step : α → Nat → Run κ (AdverbStop ε) (Value × α)}
    {step' : β → Nat → Run κ (AdverbStop ε) (Value × β)}
    (hstep : ∀ ρ' a b i, ρ ≤ ρ' → R ρ' a b → Run.Alike J ρ'
      (fun ρ r r' => r.1.Paired ρ r'.1 ∧ R ρ r.2 r'.2) (step a i) (step' b i))
    {a : α} {b : β} (hab : R ρ a b) :
    Run.Alike J ρ (PairedAnew ρ) (stackResults axis len step a)
      (stackResults axis len step' b) := by
  unfold stackResults
  refine (hstep ρ a b 0 (le_refl ρ) hab).bind fun ρ₁ r r' hle₁ hr => ?_
  obtain ⟨first, a⟩ := r
  obtain ⟨first', b⟩ := r'
  refine .getStore_bind fun s t hs => ?_
  rw [elementLayout_paired hs hr.1]
  refine (Run.Alike.ofExcept (Q := fun _ l l' => l' = l) _ (.refl _ fun _ _ => rfl)).bind
    fun ρ₂ layout layout' hle₂ heq => ?_
  rw [heq]
  obtain ⟨elt, shape⟩ := layout
  dsimp only
  refine (zeros_alike elt _).bind fun ρ₃ out out' hle₃ hout => ?_
  obtain ⟨c, ⟨hc, hnew⟩, rfl⟩ := hout
  have hfirst := (hr.1.mono hle₂).mono hle₃
  -- Slots are views of the output, so they stand for each other as long as its block is paired.
  have hslot (i : Nat) {ρ' : Pairing} (hle : ρ₃ ≤ ρ') :
      Stands ρ' (out.indexAxis (min axis shape.length) i)
        ((out.on c).indexAxis (min axis shape.length) i) :=
    ⟨c, hle _ _ hc, rfl⟩
  refine (store_alike (hslot 0 (le_refl ρ₃)) hfirst).bind fun ρ₄ _ _ hle₄ _ => ?_
  have hle : ρ ≤ ρ₃ := le_trans hle₁ (le_trans hle₂ hle₃)
  have hstate := hR _ _ _ _ hle₄ (hR _ _ _ _ hle₃ (hR _ _ _ _ hle₂ hr.2))
  -- The invariant of the remaining steps is that the states that they hand on are related.
  refine (Run.Alike.foldPositionsM (Q := R) (fun ρ₅ a b i hle₅ hab => ?_) hstate 1 (len - 1)).bind
    fun ρ₅ _ _ hle₅ _ => ?_
  · refine (hstep ρ₅ a b i (le_trans hle (le_trans hle₄ hle₅)) hab).bind
      fun ρ₆ r r' hle₆ hr => ?_
    refine (store_alike (hslot i (le_trans hle₄ (le_trans hle₅ hle₆))) hr.1).bind
      fun ρ₇ _ _ hle₇ _ => ?_
    exact .pure (hR _ _ _ _ hle₇ hr.2)
  · have hstacked : PairedAnew ρ₂ ρ₅ (.array out) (.array (out.on c)) :=
      .array ⟨hle₅ _ _ (hle₄ _ _ hc), hnew⟩
    exact .pure (hstacked.of_le (le_trans hle₁ hle₂))

/-! ## Calls -/

/-- Calls of functions on arguments that stand for each other are alike. -/
def CallsAlike (J : κ → Prop) (apply : Value → List Value → Run κ ε Value) : Prop :=
  ∀ (ρ : Pairing) (f g : Value) (as bs : List Value), f.Paired ρ g → PairedAll ρ as bs →
    Run.Alike J ρ Paired (apply f as) (apply g bs)

section
variable {apply : Value → List Value → Run κ ε Value} {f g : Value}

theorem calling_alike (happly : CallsAlike J apply) (hf : f.Paired ρ g) (h : PairedAll ρ as bs) :
    Run.Alike J ρ Paired (calling (apply f as)) (calling (apply g bs)) :=
  (happly ρ f g as bs hf h).mapError _

theorem emptyLike_alike (h : PairedAll ρ as bs) :
    Run.Alike J ρ (PairedAnew ρ) (emptyLike as : Run κ (AdverbStop ε) Value) (emptyLike bs) := by
  unfold emptyLike
  rw [firstLayout_paired h]
  refine (zeros_alike _ _).bind fun ρ' out out' _ hout => ?_
  obtain ⟨c, hc, rfl⟩ := hout
  exact .pure (.array hc)

theorem map_sliceArg_paired (hs : ρ.Matches s t) (h : PairedAll ρ as bs) (axis i : Nat) :
    PairedAll ρ (as.map (sliceArg s axis i)) (bs.map (sliceArg t axis i)) := by
  rw [pairedAll_iff, List.forall₂_map_left_iff, List.forall₂_map_right_iff]
  exact (pairedAll_iff.1 h).imp fun _ _ hab => sliceArg_paired hs axis i hab

theorem sliceArgs_alike (h : PairedAll ρ as bs) (axis i : Nat) :
    Run.Alike J ρ PairedAll (sliceArgs axis as i : Run κ (AdverbStop ε) (List Value))
      (sliceArgs axis bs i) :=
  .getStore_bind fun _ _ hs => .pure (map_sliceArg_paired hs h axis i)

theorem orFail_axisLen_alike (h : PairedAll ρ as bs) (axis : Nat) :
    Run.Alike J ρ (fun _ l l' => l' = l ∧ axisLen axis as = .ok l)
      (orFail (axisLen axis as) : Run κ (AdverbStop ε) _) (orFail (axisLen axis bs)) := by
  rw [axisLen_paired h]
  exact .ofExcept _ (.refl _ fun _ hl => ⟨rfl, hl⟩)

/-- A map over an array makes its result in new storage. -/
theorem map_alike (happly : CallsAlike J apply) (hf : f.Paired ρ g) (h : PairedAll ρ as bs)
    (axis : Nat) :
    Run.Alike J ρ (PairedAnewIf (HasArray as) ρ) (Adverb.map apply f as axis)
      (Adverb.map apply g bs axis) := by
  unfold Adverb.map
  refine (orFail_axisLen_alike h axis).bind fun ρ₁ _ len? hle₁ heq => ?_
  obtain ⟨rfl, hlen⟩ := heq
  split
  · refine (calling_alike happly (hf.mono hle₁) (h.mono hle₁)).mono fun _ _ _ _ hvw => ?_
    exact .of_not hvw (not_hasArray_of_axisLen hlen)
  · exact (emptyLike_alike (h.mono hle₁)).mono fun _ _ _ _ hvw => .of_anew (hvw.of_le hle₁)
  · refine (stackResults_alike (R := fun _ _ _ => True) (fun _ _ _ _ _ _ => trivial) axis _
      (fun ρ₂ _ _ i hle₂ _ => ?_) trivial).mono fun _ _ _ _ hvw => .of_anew (hvw.of_le hle₁)
    have hle := le_trans hle₁ hle₂
    refine (sliceArgs_alike (h.mono hle) axis i).bind fun ρ₃ _ _ hle₃ hslices => ?_
    refine (calling_alike happly (hf.mono (le_trans hle hle₃)) hslices).bind
      fun ρ₄ _ _ _ hresult => ?_
    exact .pure ⟨hresult, trivial⟩

/-- The call of a function on a slice of each of two arrays. -/
def callPair (apply : Value → List Value → Run κ ε Value) (f : Value) (xs ys : View)
    (axis i j : Nat) : Run κ (AdverbStop ε) Value := do
  let s ← Run.getStore
  calling (apply f [.ofView s (xs.indexAxis axis i), .ofView s (ys.indexAxis axis j)])

/-- The calls for one slice of the first array, each written into its slot. -/
def fillRow (apply : Value → List Value → Run κ ε Value) (f : Value) (xs ys out : View)
    (axis ny i start : Nat) : Run κ (AdverbStop ε) Unit :=
  foldPositionsM (fun _ j => do
    store ((out.indexAxis 0 i).indexAxis 0 j) (← callPair apply f xs ys axis i j))
    start (ny - start) ()

theorem allPairs_arrays (apply : Value → List Value → Run κ ε Value) (f : Value) (xs ys : View)
    (axis : Nat) : Adverb.allPairs apply f (.array xs) (.array ys) axis = do
      let nx := (← orFail (axisLen axis [.array xs])).getD 0
      let ny := (← orFail (axisLen axis [.array ys])).getD 0
      if nx = 0 ∨ ny = 0 then
        return .array (← Run.make (View.zeros xs.elt (nx :: ny :: xs.shape.eraseIdx axis)))
      else
        let first ← callPair apply f xs ys axis 0 0
        let (elt, shape) ← orFail (elementLayout (← Run.getStore) first)
        let out ← Run.make (View.zeros elt (nx :: ny :: shape))
        store ((out.indexAxis 0 0).indexAxis 0 0) first
        fillRow apply f xs ys out axis ny 0 1
        foldPositionsM (fun _ i => fillRow apply f xs ys out axis ny i 0) 1 (nx - 1) ()
        return .array out :=
  rfl

variable {xs ys out : View} {c d e : Nat}

theorem callPair_alike (happly : CallsAlike J apply) (hf : f.Paired ρ g) (hx : ρ xs.block c)
    (hy : ρ ys.block d) (axis i j : Nat) :
    Run.Alike J ρ Paired (callPair apply f xs ys axis i j)
      (callPair apply g (xs.on c) (ys.on d) axis i j) := by
  refine .getStore_bind fun s t hs => calling_alike happly hf ?_
  exact .cons (ofView_paired (v := xs.indexAxis axis i) hs hx)
    (.cons (ofView_paired (v := ys.indexAxis axis j) hs hy) .nil)

theorem fillRow_alike (happly : CallsAlike J apply) (hf : f.Paired ρ g) (hx : ρ xs.block c)
    (hy : ρ ys.block d) (hout : ρ out.block e) (axis ny i start : Nat) :
    Run.Alike J ρ (fun _ _ _ => True) (fillRow apply f xs ys out axis ny i start)
      (fillRow apply g (xs.on c) (ys.on d) (out.on e) axis ny i start) := by
  refine .foldPositionsM (fun ρ₁ _ _ j hle₁ _ => ?_) trivial start _
  refine (callPair_alike happly (hf.mono hle₁) (hle₁ _ _ hx) (hle₁ _ _ hy) axis i j).bind
    fun ρ₂ _ _ hle₂ hvalue => ?_
  exact store_alike ⟨e, hle₂ _ _ (hle₁ _ _ hout), rfl⟩ hvalue

theorem allPairs_alike (happly : CallsAlike J apply) (hf : f.Paired ρ g) {x x' y y' : Value}
    (hx : x.Paired ρ x') (hy : y.Paired ρ y') (axis : Nat) :
    Run.Alike J ρ (PairedAnew ρ) (Adverb.allPairs apply f x y axis)
      (Adverb.allPairs apply g x' y' axis) := by
  cases hx with
  | array hx =>
    cases hy with
    | array hy =>
      rename_i xs c ys d
      rw [allPairs_arrays, allPairs_arrays]
      refine (orFail_axisLen_alike (.cons (.array hx) .nil) axis).bind
        fun ρ₁ _ nx hle₁ heq => ?_
      obtain ⟨rfl, -⟩ := heq
      refine (orFail_axisLen_alike (.cons (.array (hle₁ _ _ hy)) .nil) axis).bind
        fun ρ₂ _ ny hle₂ heq => ?_
      obtain ⟨rfl, -⟩ := heq
      have hle := le_trans hle₁ hle₂
      dsimp only
      split
      · refine (zeros_alike _ _).bind fun ρ₃ out out' _ hout => ?_
        obtain ⟨e, he, rfl⟩ := hout
        exact .pure (PairedAnew.of_le (.array he) hle)
      · refine (callPair_alike happly (hf.mono hle) (hle _ _ hx) (hle _ _ hy) axis 0 0).bind
          fun ρ₃ first first' hle₃ hfirst => ?_
        refine .getStore_bind fun s t hs => ?_
        rw [elementLayout_paired hs hfirst]
        refine (Run.Alike.ofExcept (Q := fun _ l l' => l' = l) _ (.refl _ fun _ _ => rfl)).bind
          fun ρ₄ layout layout' hle₄ heq => ?_
        rw [heq]
        obtain ⟨elt, shape⟩ := layout
        dsimp only
        refine (zeros_alike elt _).bind fun ρ₅ out out' hle₅ hout => ?_
        obtain ⟨e, ⟨he, hnew⟩, rfl⟩ := hout
        -- Every row is alike under all later pairings, whatever its calls pair in addition.
        have hrow (i start : Nat) {ρ' : Pairing} (hle' : ρ₅ ≤ ρ') :
            Run.Alike J ρ' (fun _ _ _ => True) (fillRow apply f xs ys out axis (ny.getD 0) i start)
              (fillRow apply g (xs.on c) (ys.on d) (out.on e) axis (ny.getD 0) i start) := by
          have hall := le_trans hle (le_trans hle₃ (le_trans hle₄ (le_trans hle₅ hle')))
          exact fillRow_alike happly (hf.mono hall) (hall _ _ hx) (hall _ _ hy) (hle' _ _ he) axis
            _ i start
        have hslot : Stands ρ₅ ((out.indexAxis 0 0).indexAxis 0 0)
            (((out.on e).indexAxis 0 0).indexAxis 0 0) := ⟨e, he, rfl⟩
        have hfirst₅ := hfirst.mono (le_trans hle₄ hle₅)
        refine (store_alike hslot hfirst₅).bind fun ρ₆ _ _ hle₆ _ => ?_
        refine (hrow 0 1 hle₆).bind fun ρ₇ _ _ hle₇ _ => ?_
        refine Run.Alike.bind (P := fun _ _ _ => True) (.foldPositionsM (fun ρ₈ _ _ i hle₈ _ =>
          hrow i 0 (le_trans hle₆ (le_trans hle₇ hle₈))) trivial 1 _) fun ρ₈ _ _ hle₈ _ => ?_
        have hout : PairedAnew ρ₄ ρ₈ (.array out) (.array (out.on e)) :=
          .array ⟨hle₈ _ _ (hle₇ _ _ (hle₆ _ _ he)), hnew⟩
        exact .pure (hout.of_le (le_trans hle (le_trans hle₃ hle₄)))
    | _ => exact .throw _
  | _ => exact .throw _

/-- A detached value stands for a detached one. -/
theorem detach_alike (h : v.Paired ρ w) :
    Run.Alike J ρ Paired (detach v : Run κ (AdverbStop ε) Value) (detach w) := by
  cases h with
  | array hc =>
    rename_i v c
    refine Run.Alike.bind (P := Stands) (.make fun s t hs => ?_) fun ρ' out out' _ hout => ?_
    · have hcast := View.cast_alike hs hc v.elt
      exact ⟨_, hcast.evolves, _, .inr ⟨rfl, rfl⟩, hcast.same⟩
    · obtain ⟨c', hc', rfl⟩ := hout
      exact .pure (.array hc')
  | none => exact .pure .none
  | scalar x => exact .pure (.scalar x)
  | tuple h => exact .pure (.tuple h)
  | struct name h => exact .pure (.struct name h)
  | slice x => exact .pure (.slice x)
  | closure func h => exact .pure (.closure func h)
  | op o => exact .pure (.op o)
  | host id name h => exact .pure (.host id name h)

/-! ## Folds -/

/-- The functions and the initial values of two folds stand for each other. -/
structure FoldPaired (ρ : Pairing) (fold fold' : Fold) : Prop where
  func : fold.func.Paired ρ fold'.func
  combine : fold.combine.Paired ρ fold'.combine
  start : Option.Rel (Paired ρ) fold.start? fold'.start?

theorem rel_paired_mono {ρ ρ' : Pairing} {a? b? : Option Value} (hle : ρ ≤ ρ')
    (h : Option.Rel (Paired ρ) a? b?) : Option.Rel (Paired ρ') a? b? := by
  cases h with
  | none => exact .none
  | some h => exact .some (h.mono hle)

theorem FoldPaired.mono {ρ ρ' : Pairing} {fold fold' : Fold} (h : FoldPaired ρ fold fold')
    (hle : ρ ≤ ρ') : FoldPaired ρ' fold fold' :=
  ⟨h.func.mono hle, h.combine.mono hle, rel_paired_mono hle h.start⟩

variable {fold fold' : Fold} {acc? acc?' : Option Value}

/-- Only calls of the two functions have to be alike. -/
theorem step_alike_of_calls (hfunc : Run.Alike J ρ Paired (apply fold.func as) (apply fold'.func bs))
    (hcombine : ∀ ρ' xs ys, ρ ≤ ρ' → PairedAll ρ' xs ys →
      Run.Alike J ρ' Paired (apply fold.combine xs) (apply fold'.combine ys))
    (hacc : Option.Rel (Paired ρ) acc? acc?') :
    Run.Alike J ρ Paired (fold.step apply acc? as) (fold'.step apply acc?' bs) := by
  unfold Fold.step
  refine (hfunc.mapError (AdverbStop.call (ε := ε))).bind fun ρ₁ element element' hle helement => ?_
  cases hacc with
  | none => exact detach_alike helement
  | some hacc =>
    exact (hcombine ρ₁ _ _ hle (.cons (hacc.mono hle) (.cons helement .nil))).mapError _

theorem step_alike (happly : CallsAlike J apply) (hfold : FoldPaired ρ fold fold')
    (hacc : Option.Rel (Paired ρ) acc? acc?') (h : PairedAll ρ as bs) :
    Run.Alike J ρ Paired (fold.step apply acc? as) (fold'.step apply acc?' bs) :=
  step_alike_of_calls (happly ρ _ _ _ _ hfold.func h)
    (fun ρ' xs ys hle => happly ρ' _ _ xs ys (hfold.combine.mono hle)) hacc

theorem reduce_alike (happly : CallsAlike J apply) (hfold : FoldPaired ρ fold fold')
    (h : PairedAll ρ as bs) (axis : Nat) :
    Run.Alike J ρ Paired (Adverb.reduce apply fold as axis)
      (Adverb.reduce apply fold' bs axis) := by
  unfold Adverb.reduce
  refine (orFail_axisLen_alike h axis).bind fun ρ₁ _ len? hle₁ heq => ?_
  obtain ⟨rfl, -⟩ := heq
  have hfold₁ := hfold.mono hle₁
  split
  · exact step_alike happly hfold₁ hfold₁.start (h.mono hle₁)
  · refine (Run.Alike.foldPositionsM (Q := fun ρ => Option.Rel (Paired ρ))
      (fun ρ₂ acc? acc?' i hle₂ hacc => ?_) hfold₁.start 0 _).bind fun ρ₂ acc? acc?' _ hacc => ?_
    · refine (sliceArgs_alike (h.mono (le_trans hle₁ hle₂)) axis i).bind
        fun ρ₃ _ _ hle₃ hslices => ?_
      refine (step_alike happly (hfold₁.mono (le_trans hle₂ hle₃)) (rel_paired_mono hle₃ hacc)
        hslices).bind fun ρ₄ _ _ _ hstep => ?_
      exact .pure (.some hstep)
    · cases hacc with
      | none => exact .throw _
      | some hacc => exact .pure hacc

/-- A scan over an array makes its result in new storage. -/
theorem scan_alike (happly : CallsAlike J apply) (hfold : FoldPaired ρ fold fold')
    (hemit : f.Paired ρ g) (h : PairedAll ρ as bs) (axis : Nat) :
    Run.Alike J ρ (PairedAnewIf (HasArray as) ρ) (Adverb.scan apply fold f as axis)
      (Adverb.scan apply fold' g bs axis) := by
  unfold Adverb.scan
  refine (orFail_axisLen_alike h axis).bind fun ρ₁ _ len? hle₁ heq => ?_
  obtain ⟨rfl, hlen⟩ := heq
  have hfold₁ := hfold.mono hle₁
  split
  · refine (step_alike happly hfold₁ hfold₁.start (h.mono hle₁)).bind fun ρ₂ _ _ hle₂ hacc => ?_
    refine (calling_alike happly (hemit.mono (le_trans hle₁ hle₂)) (.cons hacc .nil)).mono
      fun _ _ _ _ hvw => .of_not hvw (not_hasArray_of_axisLen hlen)
  · exact (emptyLike_alike (h.mono hle₁)).mono fun _ _ _ _ hvw => .of_anew (hvw.of_le hle₁)
  · refine (stackResults_alike (R := fun ρ => Option.Rel (Paired ρ))
      (fun _ _ _ _ hle hacc => rel_paired_mono hle hacc) axis _
      (fun ρ₂ acc? acc?' i hle₂ hacc => ?_) hfold₁.start).mono
      fun _ _ _ _ hvw => .of_anew (hvw.of_le hle₁)
    refine (sliceArgs_alike (h.mono (le_trans hle₁ hle₂)) axis i).bind
      fun ρ₃ _ _ hle₃ hslices => ?_
    refine (step_alike happly (hfold₁.mono (le_trans hle₂ hle₃)) (rel_paired_mono hle₃ hacc)
      hslices).bind fun ρ₄ _ _ hle₄ hstep => ?_
    have hemit₄ := hemit.mono (le_trans hle₁ (le_trans hle₂ (le_trans hle₃ hle₄)))
    refine (calling_alike happly hemit₄ (.cons hstep .nil)).bind fun ρ₅ _ _ hle₅ hresult => ?_
    exact .pure ⟨hresult, .some (hstep.mono hle₅)⟩

end
end ArrayLang.Adverb
