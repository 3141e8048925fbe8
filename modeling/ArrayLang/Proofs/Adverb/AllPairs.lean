import ArrayLang.Proofs.Adverb.Map

/-!
# All pairs

All-pairs calls its function on each pair of slices of two arrays, row by row: for each slice of the first
array in order, on the slices of the second in order. The first pair sizes the output, and the rest of its
row and the other rows are filled after it. If an axis is empty there is no pair and no call.

## Main results

- `allPairs_eq_collect`: the first pair, the rest of its row and the other rows are all pairs in order.
- `allPairs_rowMajor`: the calls of all-pairs and what the result holds, for all arguments.
-/

namespace ArrayLang.Adverb

open Run

variable {κ ε : Type} {apply : Value → List Value → Run κ ε Value} {held : κ → Nat → Prop}
  {func x y : Value} {xs ys out : View} {axis m n : Nat} {σ : State κ} {owned : Prop}

/-! ## The length of the axis -/

theorem axisLen_array (v : View) (axis : Nat) :
    axisLen axis [.array v] = if v.rank ≤ axis then .error (.axisOutOfRange axis v.rank)
      else .ok (some (v.shape.getD axis 0)) := by
  unfold axisLen
  rw [List.foldlM_cons]
  dsimp only
  split <;> rfl

theorem axisLen_array_ok (h : axis < xs.rank) :
    axisLen axis [.array xs] = .ok (some (xs.shape.getD axis 0)) := by
  rw [axisLen_array, if_neg (Nat.not_le_of_lt h)]

theorem axisLen_array_error (h : xs.rank ≤ axis) :
    axisLen axis [.array xs] = .error (.axisOutOfRange axis xs.rank) := by
  rw [axisLen_array, if_pos h]

/-! ## Pairs in order -/

/-- The call for a pair of positions. -/
def pairCall (apply : Value → List Value → Run κ ε Value) (func : Value) (xs ys : View)
    (axis : Nat) : Nat × Nat → Run κ ε Value :=
  callOn apply func fun s i =>
    [.ofView s (xs.indexAxis axis i.1), .ofView s (ys.indexAxis axis i.2)]

/-- The pairs after the first: the rest of its row, and the other rows. -/
def laterPairs (m n : Nat) : List (Nat × Nat) :=
  (List.range' 1 n).map (Prod.mk 0) ++ List.range' 1 m ×ˢ List.range' 0 (n + 1)

theorem positions_pairs_succ (m n : Nat) :
    (Arrangement.pairs (m + 1) (n + 1)).positions = (0, 0) :: laterPairs m n := by
  show List.range (m + 1) ×ˢ List.range (n + 1) = _
  rw [List.range_eq_range', List.range_eq_range', List.range'_succ, List.product_cons,
    List.range'_succ]
  rfl

theorem forM_product {α β : Type} {m : Type → Type} [Monad m] [LawfulMonad m] (as : List α)
    (bs : List β) (f : α × β → m Unit) :
    forM (as ×ˢ bs) f = forM as fun a => forM bs fun b => f (a, b) := by
  induction as with
  | nil => rfl
  | cons a as ih =>
    rw [List.product_cons, List.forM_append, List.forM_map, ih]
    rfl

/-- A row is filled with the results of its pairs. -/
theorem fillRow_eq_forM (rows columns : Nat) (shape : List Nat) (ny i start : Nat) :
    fillRow apply func xs ys out axis ny i start
      = forM (List.range' start (ny - start)) fun j =>
        fillPart (.pairs rows columns) (pairCall apply func xs ys axis) shape out (i, j) :=
  foldPositionsM_eq_forM _ start (ny - start)

theorem allPairs_eq_collect (apply : Value → List Value → Run κ ε Value) (func : Value)
    (hx : axis < xs.rank) (hy : axis < ys.rank) (hxs : xs.shape.getD axis 0 = m + 1)
    (hys : ys.shape.getD axis 0 = n + 1) :
    allPairs apply func (.array xs) (.array ys) axis
      = collect (.pairs (m + 1) (n + 1)) (pairCall apply func xs ys axis) (0, 0)
        (laterPairs m n) := by
  have hnonempty : ¬(m + 1 = 0 ∨ n + 1 = 0) := by omega
  -- The loops of the definition are one loop over the pairs that come after the first.
  have hlater (shape : List Nat) (out : View) :
      forM (laterPairs m n)
          (fillPart (.pairs (m + 1) (n + 1)) (pairCall apply func xs ys axis) shape out)
        = fillRow apply func xs ys out axis (n + 1) 0 1 >>= fun _ =>
          foldPositionsM (fun _ i => fillRow apply func xs ys out axis (n + 1) i 0) 1 m () := by
    unfold laterPairs
    rw [List.forM_append, List.forM_map, forM_product, foldPositionsM_eq_forM]
    simp only [fillRow_eq_forM (m + 1) (n + 1) shape]
    rfl
  rw [allPairs_arrays, axisLen_array_ok hx, axisLen_array_ok hy, hxs, hys]
  unfold collect
  simp only [orFail, Run.ofExcept, pure_bind, Option.getD_some, if_neg hnonempty, hlater, bind_assoc]
  rfl

/-! ## All pairs -/

theorem allPairs_collected (hx : axis < xs.rank) (hy : axis < ys.rank)
    (hxs : 0 < xs.shape.getD axis 0) (hys : 0 < ys.shape.getD axis 0)
    (hfunc : owned → Owning held apply func)
    (hthere : owned → Present (Reaches held func [.array xs, .array ys]) σ) :
    Collected (.pairs (xs.shape.getD axis 0) (ys.shape.getD axis 0))
      (pairCall apply func xs ys axis) owned σ
      (exec (allPairs apply func (.array xs) (.array ys) axis) σ) := by
  obtain ⟨m, hm⟩ := Nat.exists_eq_succ_of_ne_zero (Nat.ne_of_gt hxs)
  obtain ⟨n, hn⟩ := Nat.exists_eq_succ_of_ne_zero (Nat.ne_of_gt hys)
  have hslices (s : Store) (i : Nat × Nat) (b : Nat)
      (hb : b ∈ Value.blocksAll
        [.ofView s (xs.indexAxis axis i.1), .ofView s (ys.indexAxis axis i.2)]) :
      b ∈ Value.blocksAll [.array xs, .array ys] := by
    rcases List.mem_append.1 hb with hb | hb
    · exact List.mem_append_left _
        (List.mem_singleton.2 (Value.blocks_ofView s (xs.indexAxis axis i.1) b hb))
    · have hb := Value.mem_blocksAll_singleton.1 hb
      exact List.mem_append_right _ (Value.mem_blocksAll_singleton.2
        (List.mem_singleton.2 (Value.blocks_ofView s (ys.indexAxis axis i.2) b hb)))
  rw [allPairs_eq_collect apply func hx hy hm hn, hm, hn]
  exact collect_collected (fun howned => (hfunc howned).enclosed hslices) hthere
    (positions_pairs_succ m n)

theorem allPairs_not_arrays (apply : Value → List Value → Run κ ε Value) (func : Value)
    (axis : Nat) (h : x.isArray = false ∨ y.isArray = false) :
    allPairs apply func x y axis = throw (.adverb .allPairsArgs) := by
  unfold allPairs
  split
  · rcases h with h | h <;> cases h
  · rfl

/-- The first of the two arrays that does not have the axis is named by the error. -/
theorem allPairs_axis_error (apply : Value → List Value → Run κ ε Value) (func : Value)
    (h : xs.rank ≤ axis ∨ ys.rank ≤ axis) (σ : State κ) :
    exec (allPairs apply func (.array xs) (.array ys) axis) σ
      = (.error (.adverb (.axisOutOfRange axis (if xs.rank ≤ axis then xs.rank else ys.rank))), σ) := by
  rw [allPairs_arrays]
  by_cases hx : xs.rank ≤ axis
  · rw [axisLen_array_error hx, if_pos hx]
    rfl
  · rw [axisLen_array_ok (Nat.lt_of_not_le hx), axisLen_array_error (h.resolve_left hx), if_neg hx]
    rfl

theorem allPairs_empty (apply : Value → List Value → Run κ ε Value) (func : Value)
    (hx : axis < xs.rank) (hy : axis < ys.rank)
    (h : xs.shape.getD axis 0 = 0 ∨ ys.shape.getD axis 0 = 0) :
    allPairs apply func (.array xs) (.array ys) axis = do
      return .array (← make (View.zeros xs.elt
        (xs.shape.getD axis 0 :: ys.shape.getD axis 0 :: xs.shape.eraseIdx axis))) := by
  rw [allPairs_arrays, axisLen_array_ok hx, axisLen_array_ok hy]
  simp only [orFail, Run.ofExcept, pure_bind, Option.getD_some, if_pos h]

/-- Take any function, arguments and axis. If an argument is no array or an array does not have the axis,
all-pairs fails without a call. If the axis of one array is empty, it makes no call and returns an empty
array. Otherwise the calls are made on one pair of slices after the other, row by row, up to the first that
fails or whose result is refused, and the result holds at each pair what was returned for it if calls of
the function own what they touch. -/
theorem allPairs_rowMajor (apply : Value → List Value → Run κ ε Value) (func x y : Value)
    (axis : Nat) (σ : State κ) :
    (x.isArray = false ∨ y.isArray = false →
        exec (allPairs apply func x y axis) σ = (.error (.adverb .allPairsArgs), σ))
      ∧ ∀ xs ys, x = .array xs → y = .array ys →
        (xs.rank ≤ axis ∨ ys.rank ≤ axis → exec (allPairs apply func x y axis) σ
            = (.error (.adverb
              (.axisOutOfRange axis (if xs.rank ≤ axis then xs.rank else ys.rank))), σ))
          ∧ (axis < xs.rank → axis < ys.rank →
            ∀ nx ny, xs.shape.getD axis 0 = nx → ys.shape.getD axis 0 = ny →
              (nx = 0 ∨ ny = 0 → ∀ shape, shape = nx :: ny :: xs.shape.eraseIdx axis →
                Shape.size shape = 0
                  ∧ exec (allPairs apply func x y axis) σ
                    = (.ok (.array (View.zeros xs.elt shape σ.store).1),
                      ⟨(View.zeros xs.elt shape σ.store).2, σ.context⟩))
              ∧ (0 < nx → 0 < ny →
                (Arrangement.pairs nx ny).positions.map (fun i => [i.1, i.2])
                    = Shape.indices [nx, ny]
                  ∧ ∀ held, Collected (.pairs nx ny) (pairCall apply func xs ys axis)
                    (Owning held apply func ∧ Present (Reaches held func [x, y]) σ) σ
                    (exec (allPairs apply func x y axis) σ))) := by
  refine ⟨fun h => by rw [allPairs_not_arrays apply func axis h]; rfl, ?_⟩
  rintro xs ys rfl rfl
  refine ⟨fun h => allPairs_axis_error apply func h σ, fun hx hy nx ny hnx hny => ⟨?_, ?_⟩⟩
  · rintro hempty shape rfl
    constructor
    · rw [Shape.size_eq_zero_iff]
      rcases hempty with rfl | rfl
      · exact List.mem_cons_self
      · exact List.mem_cons_of_mem _ List.mem_cons_self
    · subst hnx hny
      rw [allPairs_empty apply func hx hy hempty]
      rfl
  · rintro hnx' hny'
    subst hnx hny
    exact ⟨Arrangement.positions_pairs _ _,
      fun held => allPairs_collected hx hy hnx' hny' And.left And.right⟩

/-- The two rows of the table make four pairs. They make none with an array without rows, and there is no third
axis. Without a second array there is no pair either. -/
theorem allPairs_rowMajor_table :
    (exec (allPairs ticket .none (.array Arrays.table.1) .none 0) atTable).2.context = 0
      ∧ (exec (allPairs ticket .none (.array Arrays.table.1) (.array Arrays.table.1) 2) atTable).1
        = .error (.adverb (.axisOutOfRange 2 2))
      ∧ (exec (allPairs ticket .none (.array Arrays.table.1) (.array noRows) 0) atTable).2.context = 0
      ∧ Collected (.pairs 2 2) (pairCall ticket .none Arrays.table.1 Arrays.table.1 0) True atTable
        (exec (allPairs ticket .none (.array Arrays.table.1) (.array Arrays.table.1) 0) atTable)
      ∧ (exec (allPairs ticket .none (.array Arrays.table.1) (.array Arrays.table.1) 0)
        atTable).2.context = 4 := by
  have hpresent : Present (Reaches (fun _ _ => False) .none
      [.array Arrays.table.1, .array Arrays.table.1]) atTable := by
    rintro b (hb | hb)
    · have hblocks : b ∈ [0, 0] := hb
      obtain rfl : b = 0 := by simpa using hblocks
      decide
    · exact hb.elim
  obtain ⟨hnone, -⟩ := allPairs_rowMajor ticket .none (.array Arrays.table.1) .none 0 atTable
  obtain ⟨-, hout⟩ :=
    allPairs_rowMajor ticket .none (.array Arrays.table.1) (.array Arrays.table.1) 2 atTable
  obtain ⟨-, hempty⟩ :=
    allPairs_rowMajor ticket .none (.array Arrays.table.1) (.array noRows) 0 atTable
  obtain ⟨-, hpairs⟩ :=
    allPairs_rowMajor ticket .none (.array Arrays.table.1) (.array Arrays.table.1) 0 atTable
  refine ⟨?_, ?_, ?_, ?_, rfl⟩
  · rw [hnone (.inr rfl)]
    rfl
  · rw [(hout _ _ rfl rfl).1 (.inl (by decide))]
    rfl
  · obtain ⟨hzero, -⟩ := (hempty _ _ rfl rfl).2 (by decide) (by decide) 2 0 rfl rfl
    rw [(hzero (.inr rfl) _ rfl).2]
    rfl
  · obtain ⟨-, hcalls⟩ := (hpairs _ _ rfl rfl).2 (by decide) (by decide) 2 2 rfl rfl
    exact ((hcalls (by decide) (by decide)).2 _).mono fun _ => ⟨ticket_owning _, hpresent⟩

end ArrayLang.Adverb
