import ArrayLang.Proofs.Interpreter.ArrayItem

/-!
# Array literals and their expansion

A literal of arrays stacks its items, which has to fail when their shapes differ. Its expansion allocates
an array from the shape of the first item and writes every item to its slot, where axes of length 1 are
stretched. Where all items have the shape of the first, both make the same array, and where some item
cannot be stretched to that shape, both fail. In between the expansion makes an array and the literal
fails: when all items can be stretched to the shape of the first, and some have another shape.

## Main results

- `exec_literal_ok`, `exec_literal_error`: what the literal does.
- `exec_expandedLiteral_ok`, `exec_expandedLiteral_error`: what its expansion does.
- `expanded_agrees_iff`: when they agree.
-/

namespace ArrayLang.Interpreter

open Run Lower Shape

variable {apply : Apply} {trace : Trace} {fuel : Nat} {env : Env} {σ σ₀ σ₁ : State Session}
  {elt : ElemType} {rank n : Nat} {shape : List Nat} {c first : Contents} {cs rest rows : List Contents}
  {out v : View}

/-! ## Stacking -/

/-- A literal of arrays stacks their contents. -/
theorem arrayLiteral_arrays {vs : List View} (h : List.Forall₂ (Holds σ) vs cs) (elt : ElemType)
    (rank : Nat) :
    arrayLiteral (vs.map .array) (some (.array elt rank)) σ.store
      = match View.stackItems (cs.map fun c => (c.shape, c.flat)) with
        | .ok (shape, data) => .ok (newArray (View.ofFlat elt shape data))
        | .error cause => .error (.array cause) := by
  refine Eq.trans (congrArg (· >>= fun parts =>
    (View.stackItems parts).mapError Fault.array >>= fun stacked =>
      pure (newArray (View.ofFlat elt stacked.1 stacked.2)))
    (Outcome.mapM_eq_ok.2 (?_ : List.Forall₂ _ _ (cs.map fun c => (c.shape, c.flat))))) ?_
  · rw [List.forall₂_map_left_iff, List.forall₂_map_right_iff]
    refine h.imp fun v c hv => ?_
    rw [← hv.2.shape_eq, ← hv.2.toFlat_eq]
  · show (View.stackItems _).mapError Fault.array >>= _ = _
    cases View.stackItems (cs.map fun c => (c.shape, c.flat)) <;> rfl

/-- A literal of arrays, typed. -/
def literal (items : List Expr) (elt : ElemType) (rank : Nat) : Expr :=
  .typed (.array items) (.array elt rank)

variable {p : String → Prop} {es : List Expr}

/-- The items of a literal are evaluated and then stacked. -/
theorem exec_literal (elt : ElemType) (rank : Nat)
    (h : List.Forall₂ (EvaluatesTo apply trace p env σ) es cs) :
    ∃ vs σ₁, List.Forall₂ (Holds σ₁) vs cs
      ∧ exec (evalExpr apply trace env (literal es elt rank)) σ
        = exec (operate trace (arrayLiteral (vs.map .array) (some (.array elt rank)))) σ₁ := by
  obtain ⟨vs, σ₁, hexec, -, hholds⟩ := exec_evalExprs h (.refl σ)
  refine ⟨vs, σ₁, hholds, ?_⟩
  show exec (evalExprs apply trace env es >>= fun items => _) σ = _
  rw [exec_bind_ok hexec]

/-- When all items have the shape of the first, their elements are put one after the other. -/
theorem exec_literal_ok (elt : ElemType) (rank : Nat)
    (h : List.Forall₂ (EvaluatesTo apply trace p env σ) es (first :: rest))
    (hshapes : ∀ c ∈ rest, c.shape = first.shape) :
    ∃ v σ', exec (evalExpr apply trace env (literal es elt rank)) σ = (.ok (.array v), σ')
      ∧ v.elt = elt ∧ v.shape = (rest.length + 1) :: first.shape
      ∧ v.toFlat σ'.store = ((first :: rest).flatMap Contents.flat).map (·.cast elt) := by
  obtain ⟨vs, σ₁, hholds, hexec⟩ := exec_literal elt rank h
  let data := (first :: rest).flatMap Contents.flat
  have hlength : data.length = size ((rest.length + 1) :: first.shape) := by
    refine View.length_stackItems (List.forall_mem_map.2 fun c _ => ?_)
      (Contents.stackItems_ok hshapes)
    exact c.length_flat
  refine ⟨(View.ofFlat elt ((rest.length + 1) :: first.shape) data σ₁.store).1,
    ⟨(View.ofFlat elt ((rest.length + 1) :: first.shape) data σ₁.store).2, σ₁.context⟩, ?_, rfl, rfl,
    View.toFlat_ofFlat elt σ₁.store hlength⟩
  rw [hexec, operate, exec_attempt, arrayLiteral_arrays hholds, Contents.stackItems_ok hshapes]
  rfl

/-- Otherwise the literal fails. -/
theorem exec_literal_error (elt : ElemType) (rank : Nat)
    (h : List.Forall₂ (EvaluatesTo apply trace p env σ) es (first :: rest))
    (hshapes : ¬∀ c ∈ rest, c.shape = first.shape) :
    ∃ stop σ', exec (evalExpr apply trace env (literal es elt rank)) σ = (.error stop, σ') := by
  obtain ⟨vs, σ₁, hholds, hexec⟩ := exec_literal elt rank h
  obtain ⟨other, hragged⟩ := Contents.stackItems_error hshapes
  refine ⟨.fault (.array (.ragged first.shape other)) trace, σ₁, ?_⟩
  rw [hexec, operate, exec_attempt, arrayLiteral_arrays hholds, hragged]

/-! ## Allocating -/

theorem exec_intConst (n : Nat) :
    exec (evalExpr apply trace env (intConst n)) σ = (.ok (.ofNat n), σ) :=
  rfl

/-- The lengths of the axes of an array in a variable. -/
theorem exec_shapeDims {x : String} {ty? : Option Ty} (hx : env.find? x = some (.array v)) :
    List.Forall₂ (fun e value => exec (evalExpr apply trace env e) σ = (.ok value, σ))
      (shapeDims ⟨.var x, ty?⟩ v.rank) (v.shape.map .ofNat) := by
  rw [← List.map_getD_range (v.shape.map Value.ofNat) Value.none, List.length_map]
  unfold shapeDims
  rw [List.forall₂_map_left_iff, List.forall₂_map_right_iff]
  refine List.forall₂_same.2 fun i hi => ?_
  have hitem : (v.shape.map Value.ofNat)[i]? = some ((v.shape.map Value.ofNat).getD i .none) := by
    rw [List.getD_eq_getElem?_getD]
    rw [List.getElem?_map, List.getElem?_eq_getElem (List.mem_range.1 hi)]
    rfl
  show exec (evalExpr apply trace env _ >>= fun value => _) σ = _
  have hshape : exec (evalExpr apply trace env (.typed (.attr ⟨.var x, ty?⟩ "shape")
      (.tuple (List.replicate v.rank .int64)))) σ = (.ok (.tuple (v.shape.map .ofNat)), σ) := by
    show exec (evalExpr apply trace env ⟨.var x, ty?⟩ >>= fun base => _) σ = _
    rw [exec_bind_ok (exec_var hx ty? σ)]
    rfl
  rw [exec_bind_ok hshape]
  dsimp only
  rw [hitem]
  rfl

/-- Expressions without an effect, from left to right. -/
theorem exec_evalExprs_pure {es : List Expr} {values : List Value}
    (h : List.Forall₂ (fun e value => exec (evalExpr apply trace env e) σ = (.ok value, σ)) es values) :
    exec (evalExprs apply trace env es) σ = (.ok values, σ) := by
  induction h with
  | nil => rfl
  | cons he _ ih =>
    rw [evalExprs, exec_bind_ok he, exec_bind_ok ih]
    rfl

/-- Lengths are read back from the values that they are given as. -/
theorem dims?_ofNat {dims : List Nat} (h : ∀ d ∈ dims, d < 2 ^ 63) :
    dims? (.tuple (dims.map .ofNat)) = some dims := by
  show (dims.map Value.ofNat).mapM dims?.dim? = some dims
  induction dims with
  | nil => rfl
  | cons d dims ih =>
    rw [List.forall_mem_cons] at h
    have hvalue : (Int64.ofNat d).toInt = d := Int64.toInt_ofNat_of_lt h.1
    have hd : dims?.dim? (.ofNat d) = some d := by
      show (if 0 ≤ Int64.ofNat d then some (Int64.ofNat d).toInt.toNat else none) = _
      rw [if_pos (Int64.le_iff_toInt_le.2 (hvalue ▸ Int.natCast_nonneg d)), hvalue]
      rfl
    rw [List.map_cons, List.mapM_cons, hd, ih h.2]
    rfl

/-- The array that the expansion of a literal allocates. -/
theorem exec_allocLike {x : String} {ty? : Option Ty} (hx : env.find? x = some (.array v))
    (hv : v.shape = shape) (hrank : shape.length = rank - 1) (hn : n < 2 ^ 63)
    (hdims : ∀ d ∈ shape, d < 2 ^ 63) :
    exec (evalExpr apply trace env (allocLike ⟨.var x, ty?⟩ n elt rank)) σ
      = (.ok (.array (View.zeros elt (n :: shape) σ.store).1),
          ⟨(View.zeros elt (n :: shape) σ.store).2, σ.context⟩) := by
  subst hv
  have hitems : exec (evalExprs apply trace env
      (intConst n :: shapeDims ⟨.var x, ty?⟩ v.shape.length)) σ
        = (.ok ((n :: v.shape).map .ofNat), σ) :=
    exec_evalExprs_pure (.cons (exec_intConst n) (exec_shapeDims hx))
  have hshape : exec (evalExpr apply trace env (.typed
      (.tuple (intConst n :: shapeDims ⟨.var x, ty?⟩ (rank - 1)))
      (.tuple (List.replicate rank .int64)))) σ
        = (.ok (.tuple ((n :: v.shape).map .ofNat)), σ) := by
    rw [← hrank]
    show exec (evalExprs apply trace env _ >>= fun items => _) σ = _
    rw [exec_bind_ok hitems]
    rfl
  show exec (evalExpr apply trace env _ >>= fun shape => _) σ = _
  rw [exec_bind_ok hshape]
  show exec (attempt _ _) σ = _
  rw [exec_attempt]
  unfold allocValue
  rw [dims?_ofNat (List.forall_mem_cons.2 ⟨hn, hdims⟩)]
  rfl

/-! ## Writing the slots -/

/-- The first slots of an array that was made after `σ₀` hold the contents, and nothing that was there
in `σ₀` has changed. -/
structure Written (σ₀ : State Session) (out : View) (n : Nat) (shape : List Nat) (σ : State Session)
    (rows : List Contents) : Prop where
  grows : σ₀.Grows σ
  new : σ₀.store.blocks.size ≤ out.block
  slots : out.Slots σ.store n shape
  shows : ∀ j (hj : j < rows.length), (out.slot j).Shows σ.store rows[j]

namespace Written

/-- No slot of a new array is written yet. -/
theorem start (elt : ElemType) (n : Nat) (shape : List Nat) (σ : State Session) :
    Written σ (View.zeros elt (n :: shape) σ.store).1 n shape
      ⟨(View.zeros elt (n :: shape) σ.store).2, σ.context⟩ [] where
  grows := ⟨rfl, .alloc _ _ _⟩
  new := Nat.le_refl _
  slots := by
    refine ⟨rfl, ?_⟩
    rw [View.zeros_eq_ofFlat]
    exact View.ofFlat_wellFormed elt σ.store List.length_replicate
  shows j hj := absurd hj (Nat.not_lt_zero j)

theorem grow (h : Written σ₀ out n shape σ rows) (hσ : σ.Grows σ₁) :
    Written σ₀ out n shape σ₁ rows where
  grows := h.grows.trans hσ
  new := h.new
  slots := ⟨h.slots.shape_eq, h.slots.wellFormed.of_touches hσ.2 id⟩
  shows j hj := hσ.shows (v := out.slot j) h.slots.wellFormed.block_lt (h.shows j hj)

/-- The next slot is written. -/
theorem write (h : Written σ₀ out n shape σ rows) (hrows : rows.length < n) (hc : c.shape = shape) :
    Written σ₀ out n shape ⟨(out.slot rows.length).setCells c.cells σ.store, σ.context⟩
      (rows ++ [c.cast out.elt]) where
  grows := by
    -- The write goes to a block that was not there in `σ₀`.
    refine ⟨h.grows.1, h.grows.2.trans (View.setCells_touches _ _ _) fun b hb heq => ?_⟩
    have hnew : out.block = b := heq.symm
    exact absurd h.new (by omega)
  new := h.new
  slots := (h.slots.set hrows hc).1
  shows j hj := by
    by_cases hlast : j = rows.length
    · subst j
      rw [List.getElem_concat_length rfl]
      exact (h.slots.set hrows hc).2
    · have hlt : j < rows.length := by
        rw [List.length_append, List.length_singleton] at hj
        omega
      rw [List.getElem_append_left hlt]
      exact h.slots.set_ne (by omega) hrows hlast hc (h.shows j hlt)

end Written

/-- A constant subscript selects a slot. -/
theorem select_slot {j : Nat} (hshape : out.shape = n :: shape) (hj : j < n) (hn : n < 2 ^ 63) :
    out.select [.at (Int64.ofNat j)] = .ok (out.slot j) := by
  have hvalue : (Int64.ofNat j).toInt = j := Int64.toInt_ofNat_of_lt (Nat.lt_trans hj hn)
  have hindex : View.resolveIndex (Int64.ofNat j).toInt (out.shape.getD 0 0) = .ok j := by
    rw [hvalue, hshape]
    show View.resolveIndex j n = _
    unfold View.resolveIndex
    rw [if_neg (by omega : ¬(j : Int) < 0)]
    exact if_neg (by omega)
  have hrank : ¬out.rank < 1 := by
    show ¬out.shape.length < 1
    rw [hshape, List.length_cons]
    omega
  show (if out.rank < 1 then _ else View.selectFrom out 0 [.at (Int64.ofNat j)]) = _
  rw [if_neg hrank, View.selectFrom, hindex]
  rfl

/-- What is written to a slot. -/
theorem assignIndex_slot {j : Nat} (hshape : out.shape = n :: shape) (hj : j < n) (hn : n < 2 ^ 63)
    (v : View) (s : Store) :
    assignIndex (.array out) (.ofNat j) (.array v) s
      = (((out.slot j).cellsFrom v s).map (out.slot j).setCells).mapError .array := by
  have hitems : subscripts? (.ofNat j) = some [.at (Int64.ofNat j)] := rfl
  unfold assignIndex
  dsimp only
  rw [hitems]
  dsimp only
  rw [select_slot hshape hj hn]

/-- A slot of an array in a variable is assigned once the item is evaluated. -/
theorem exec_writeSlot {name : String} {ty? : Option Ty} {e : Expr} {value : Value} {j : Nat}
    (hname : env.find? name = some (.array out))
    (hvalue : exec (evalExpr apply trace env (convertItem elt e)) σ = (.ok value, σ₁)) :
    exec (runStmt apply trace fuel (writeSlot ⟨.var name, ty?⟩ elt rank e j) env) σ
      = exec (operate trace (fun s => (assignIndex (.array out) (.ofNat j) value s).map
          fun write s => ((), write s)) >>= fun _ => pure (Flow.next env)) σ₁ := by
  let target := Expr.typed (.index ⟨.var name, ty?⟩ (intConst j)) (.array elt (rank - 1))
  show exec (evalExpr apply trace env (convertItem elt e) >>= fun value =>
    assign apply trace target value env >>= fun env => pure (Flow.next env)) σ = _
  rw [exec_bind_ok hvalue]
  show exec ((evalExpr apply trace env ⟨.var name, ty?⟩ >>= fun base => _) >>= _) σ₁ = _
  rw [bind_assoc, exec_bind_ok (exec_var hname ty? σ₁), bind_assoc, exec_bind_ok (exec_intConst j),
    bind_assoc]
  rfl

section Slots

variable {name : String} (fuel rank : Nat) (ty? : Option Ty)
  (hname : env.find? name = some (.array out))
  (hn : n < 2 ^ 63)
include hname hn

/-- An item that can be stretched to the shape of the slots is written to the next one. -/
theorem exec_writeSlot_ok {e : Expr} (hw : Written σ₀ out n shape σ rows) (hrows : rows.length < n)
    (he : EvaluatesTo apply trace p env σ₀ (convertItem elt e) c)
    (hstretch : Stretches c.shape shape) :
    ∃ σ', exec (runStmt apply trace fuel (writeSlot ⟨.var name, ty?⟩ elt rank e rows.length) env) σ
        = (.ok (.next env), σ')
      ∧ Written σ₀ out n shape σ' (rows ++ [(c.stretch shape).cast out.elt]) := by
  obtain ⟨v, σ₁, hv, hgrows, -, hshows⟩ := he env σ (.refl env) hw.grows
  have hw₁ := hw.grow hgrows
  refine ⟨_, ?_, hw₁.write hrows rfl⟩
  rw [exec_writeSlot hname hv, exec_bind, operate, exec_attempt,
    assignIndex_slot hw₁.slots.shape_eq hrows hn,
    hshows.cellsFrom_ok (hw₁.slots.slot_shape _) hstretch]
  rfl

/-- One of as many axes that cannot is refused. -/
theorem exec_writeSlot_error {e : Expr} (hw : Written σ₀ out n shape σ rows)
    (hrows : rows.length < n) (he : EvaluatesTo apply trace p env σ₀ (convertItem elt e) c)
    (hrank : c.shape.length = shape.length) (hstretch : ¬Stretches c.shape shape) :
    ∃ stop σ', exec (runStmt apply trace fuel (writeSlot ⟨.var name, ty?⟩ elt rank e rows.length)
      env) σ = (.error stop, σ') := by
  obtain ⟨v, σ₁, hv, hgrows, -, hshows⟩ := he env σ (.refl env) hw.grows
  have hw₁ := hw.grow hgrows
  refine ⟨.fault (.array (.shapeMismatch shape c.shape)) trace, σ₁, ?_⟩
  rw [exec_writeSlot hname hv, exec_bind, operate, exec_attempt,
    assignIndex_slot hw₁.slots.shape_eq hrows hn,
    hshows.cellsFrom_error (hw₁.slots.slot_shape _) hrank hstretch]
  rfl

/-- Items that can be stretched to the shape of the slots are written one after the other. -/
theorem runBlock_writeSlots_ok
    (hitems : List.Forall₂ (fun e c => EvaluatesTo apply trace p env σ₀ (convertItem elt e) c) es cs)
    (hw : Written σ₀ out n shape σ rows) (hlength : rows.length + es.length ≤ n)
    (hstretch : ∀ c ∈ cs, Stretches c.shape shape) :
    ∃ σ', exec (runBlock apply trace fuel (writeSlots ⟨.var name, ty?⟩ elt rank es rows.length) env)
        σ = (.ok (.next env), σ')
      ∧ Written σ₀ out n shape σ' (rows ++ cs.map fun c => (c.stretch shape).cast out.elt) := by
  induction hitems generalizing σ rows with
  | nil =>
    refine ⟨σ, rfl, ?_⟩
    rw [List.map_nil, List.append_nil]
    exact hw
  | @cons e c es cs he _ ih =>
    rw [List.forall_mem_cons] at hstretch
    rw [List.length_cons] at hlength
    obtain ⟨σ₁, hfirst, hw₁⟩ :=
      exec_writeSlot_ok fuel rank ty? hname hn hw (by omega) he hstretch.1
    obtain ⟨σ₂, hrest, hw₂⟩ := ih hw₁ (by rw [List.length_append, List.length_singleton]; omega)
      hstretch.2
    rw [List.length_append] at hrest
    rw [List.append_assoc] at hw₂
    refine ⟨σ₂, ?_, hw₂⟩
    show exec (runStmt apply trace fuel _ env >>= fun flow => _) σ = _
    rw [exec_bind_ok hfirst]
    exact hrest

/-- The first item that cannot be stretched is refused. -/
theorem runBlock_writeSlots_error
    (hitems : List.Forall₂ (fun e c => EvaluatesTo apply trace p env σ₀ (convertItem elt e) c) es cs)
    (hw : Written σ₀ out n shape σ rows) (hlength : rows.length + es.length ≤ n)
    (hrank : ∀ c ∈ cs, c.shape.length = shape.length)
    (hstretch : ¬∀ c ∈ cs, Stretches c.shape shape) :
    ∃ stop σ', exec (runBlock apply trace fuel
      (writeSlots ⟨.var name, ty?⟩ elt rank es rows.length) env) σ = (.error stop, σ') := by
  induction hitems generalizing σ rows with
  | nil => exact absurd (List.forall_mem_nil _) hstretch
  | @cons e c es cs he _ ih =>
    rw [List.forall_mem_cons] at hstretch hrank
    rw [List.length_cons] at hlength
    show ∃ stop σ', exec (runStmt apply trace fuel _ env >>= fun flow => _) σ = _
    -- Either this item is refused, or it is written and one of those after it is refused.
    by_cases hfirst : Stretches c.shape shape
    · obtain ⟨σ₁, hwrite, hw₁⟩ :=
        exec_writeSlot_ok fuel rank ty? hname hn hw (by omega) he hfirst
      obtain ⟨stop, σ₂, hrest⟩ := ih hw₁
        (by rw [List.length_append, List.length_singleton]; omega) hrank.2
        fun hall => hstretch ⟨hfirst, hall⟩
      rw [List.length_append] at hrest
      refine ⟨stop, σ₂, ?_⟩
      rw [exec_bind_ok hwrite]
      exact hrest
    · obtain ⟨stop, σ₁, hwrite⟩ :=
        exec_writeSlot_error fuel rank ty? hname hn hw (by omega) he hrank.1 hfirst
      refine ⟨stop, σ₁, ?_⟩
      rw [exec_bind, hwrite]

end Slots

/-! ## The expansion -/

/-- A variable is set to the value of an expression. -/
theorem exec_setVar {x : String} {ty? : Option Ty} {e : Expr} {value : Value}
    (h : exec (evalExpr apply trace env e) σ = (.ok value, σ₁)) (ss : Block) :
    exec (runBlock apply trace fuel (.assign ⟨.var x, ty?⟩ e :: ss) env) σ
      = exec (runBlock apply trace fuel ss (env.insert x value)) σ₁ := by
  rw [runBlock, runStmt, bind_assoc, exec_bind_ok h]
  rfl

/-- The statements before the writes bind the first item and allocate an array of its shape. -/
theorem exec_expandedLiteral (fuel : Nat) (elt : ElemType) {names : NameSupply} {e : Expr}
    (hitems : List.Forall₂ (EvaluatesTo apply trace names.Covers env σ) (e :: es) (c :: cs))
    (hrank : c.shape.length = rank - 1) (hn : es.length + 1 < 2 ^ 63)
    (hdims : ∀ d ∈ c.shape, d < 2 ^ 63) :
    ∃ x y env' σ₀ σ' out, literalVars names e elt rank
        = (⟨.var x, e.ty?⟩, .typed (.var y) (.array elt rank))
      ∧ env'.find? y = some (.array out) ∧ out.elt = elt
      ∧ Written σ₀ out (es.length + 1) c.shape σ' []
      ∧ List.Forall₂
          (fun item c' => EvaluatesTo apply trace (fun _ => True) env' σ₀ (convertItem elt item) c')
          (⟨.var x, e.ty?⟩ :: es) (Contents.convertAll elt (e :: es) (c :: cs))
      ∧ exec (runBlock apply trace fuel (expandedLiteral names e es elt rank) env) σ
        = exec (runBlock apply trace fuel (writeSlots (.typed (.var y) (.array elt rank)) elt rank
            (⟨.var x, e.ty?⟩ :: es) 0) env') σ' := by
  obtain ⟨he, hes⟩ := List.forall₂_cons.1 hitems
  obtain ⟨v, σ₁, hv, hgrows, hholds⟩ := he.here
  let x := (names.fresh "array.first").1
  let names₁ := (names.fresh "array.first").2
  let y := (names₁.fresh "array").1
  let env₁ := env.insert x (.array v)
  let out := (View.zeros elt ((es.length + 1) :: c.shape) σ₁.store).1
  let env₂ := env₁.insert y (.array out)
  have hcovers : names₁.Covers x := names.covers_fresh "array.first"
  have hxy : x ≠ y := fun heq =>
    names₁.not_covers_fresh "array" (show names₁.Covers y from heq ▸ hcovers)
  have hx : env₁.find? x = some (.array v) := by rw [NameMap.find?_insert, if_pos rfl]
  have hx₂ : env₂.find? x = some (.array v) := by rw [NameMap.find?_insert, if_neg hxy, hx]
  -- Neither variable is one that the items read.
  have henv : env.Agree names.Covers env₂ :=
    ((Env.Agree.refl env).insert (names.not_covers_fresh _) _).insert
      (fun hy => names₁.not_covers_fresh "array" (hy.fresh _)) _
  have hshape : v.shape = c.shape := hholds.2.shape_eq
  have hvar : EvaluatesTo apply trace (fun _ => True) env₂ σ₁ ⟨.var x, e.ty?⟩ c :=
    .var hx₂ trivial hholds
  have hrest : List.Forall₂ (EvaluatesTo apply trace (fun _ => True) env₂ σ₁) es cs :=
    hes.imp fun _ _ h => h.later henv hgrows fun _ _ => trivial
  refine ⟨x, y, env₂, σ₁, _, out, rfl, ?_, rfl, .start elt (es.length + 1) c.shape σ₁, ?_, ?_⟩
  · rw [NameMap.find?_insert, if_pos rfl]
  · exact List.forall₂_map_left_iff.1 (EvaluatesTo.convertAll (.cons hvar hrest) elt)
  · exact (exec_setVar hv _).trans (exec_setVar (exec_allocLike hx hshape hrank hn hdims) _)

section
variable (fuel : Nat) (elt : ElemType) {names : NameSupply} {e : Expr}
  (hitems : List.Forall₂ (EvaluatesTo apply trace names.Covers env σ) (e :: es) (c :: cs))
  (hranks : ∀ c' ∈ c :: cs, c'.shape.length = rank - 1) (hn : es.length + 1 < 2 ^ 63)
  (hdims : ∀ d ∈ c.shape, d < 2 ^ 63)
include hitems hranks hn hdims

/-- When all items can be stretched to the shape of the first, the expansion makes an array. -/
theorem exec_expandedLiteral_ok (hstretch : ∀ c' ∈ cs, Stretches c'.shape c.shape) :
    ∃ env' σ' v,
      exec (runBlock apply trace fuel (expandedLiteral names e es elt rank) env) σ
        = (.ok (.next env'), σ')
      ∧ exec (evalExpr apply trace env' (literalVars names e elt rank).2) σ' = (.ok (.array v), σ')
      ∧ v.elt = elt ∧ v.shape = (es.length + 1) :: c.shape
      ∧ v.toFlat σ'.store = ((Contents.convertAll elt (e :: es) (c :: cs)).map fun c' =>
          (c'.stretch c.shape).cast elt).flatMap Contents.flat := by
  obtain ⟨x, y, env', σ₀, σ₁, out, hvars, hy, helt, hw, hconverted, hexec⟩ :=
    exec_expandedLiteral fuel elt hitems (hranks c List.mem_cons_self) hn hdims
  have hlength := hitems.length_eq
  have hall : ∀ c' ∈ Contents.convertAll elt (e :: es) (c :: cs), Stretches c'.shape c.shape :=
    (Contents.forall_convertAll (Stretches · c.shape) hlength elt).2
      (List.forall_mem_cons.2 ⟨.refl c.shape, hstretch⟩)
  obtain ⟨σ', hwrites, hw'⟩ := runBlock_writeSlots_ok fuel rank (some (.array elt rank)) hy hn
    hconverted hw (by simp) hall
  refine ⟨env', σ', out, hexec.trans hwrites, ?_, helt, hw'.slots.shape_eq, ?_⟩
  · rw [hvars]
    exact exec_var hy _ σ'
  · rw [helt] at hw'
    refine hw'.slots.toFlat ?_ hw'.shows
    rw [List.length_map]
    exact Contents.length_convertAll hlength elt

/-- Otherwise it fails. -/
theorem exec_expandedLiteral_error (hstretch : ¬∀ c' ∈ cs, Stretches c'.shape c.shape) :
    ∃ stop σ', exec (runBlock apply trace fuel (expandedLiteral names e es elt rank) env) σ
      = (.error stop, σ') := by
  obtain ⟨x, y, env', σ₀, σ₁, out, -, hy, -, hw, hconverted, hexec⟩ :=
    exec_expandedLiteral fuel elt hitems (hranks c List.mem_cons_self) hn hdims
  have hlength := hitems.length_eq
  have hlengths : ∀ c' ∈ Contents.convertAll elt (e :: es) (c :: cs),
      c'.shape.length = c.shape.length :=
    (Contents.forall_convertAll (·.length = c.shape.length) hlength elt).2 fun c' hc' =>
      (hranks c' hc').trans (hranks c List.mem_cons_self).symm
  have hsome : ¬∀ c' ∈ Contents.convertAll elt (e :: es) (c :: cs), Stretches c'.shape c.shape :=
    fun hall => hstretch (List.forall_mem_cons.1
      ((Contents.forall_convertAll (Stretches · c.shape) hlength elt).1 hall)).2
  obtain ⟨stop, σ', hwrites⟩ := runBlock_writeSlots_error fuel rank (some (.array elt rank)) hy hn
    hconverted hw (by simp) hlengths hsome
  exact ⟨stop, σ', hexec.trans hwrites⟩

end

/-- The statements leave an array of the shape and the elements that the expression has, or both fail. -/
def ComputesSame (apply : Apply) (trace : Trace) (fuel : Nat) (block : Block) (result e : Expr)
    (env : Env) (σ : State Session) : Prop :=
  (∃ env' σ₁ σ₂ v w, exec (evalExpr apply trace env e) σ = (.ok (.array v), σ₁)
    ∧ exec (runBlock apply trace fuel block env) σ = (.ok (.next env'), σ₂)
    ∧ exec (evalExpr apply trace env' result) σ₂ = (.ok (.array w), σ₂)
    ∧ w.elt = v.elt ∧ w.shape = v.shape ∧ w.toFlat σ₂.store = v.toFlat σ₁.store)
  ∨ ∃ stop stop' σ₁ σ₂, exec (evalExpr apply trace env e) σ = (.error stop, σ₁)
    ∧ exec (runBlock apply trace fuel block env) σ = (.error stop', σ₂)

/-- The expansion does what the literal does exactly if there are no items of another shape than the
first whenever all can be stretched to it. -/
theorem expanded_agrees_iff {names : NameSupply} {e : Expr}
    (hitems : List.Forall₂ (EvaluatesTo apply trace names.Covers env σ) (e :: es) (c :: cs))
    (hranks : ∀ c' ∈ c :: cs, c'.shape.length = rank - 1) (hn : es.length + 1 < 2 ^ 63)
    (hdims : ∀ d ∈ c.shape, d < 2 ^ 63) :
    ComputesSame apply trace fuel (expandedLiteral names e es elt rank)
        (literalVars names e elt rank).2 (literal ((e :: es).map (convertItem elt)) elt rank) env σ
      ↔ (∀ c' ∈ cs, Stretches c'.shape c.shape) → ∀ c' ∈ cs, c'.shape = c.shape := by
  have hconverted : List.Forall₂ (EvaluatesTo apply trace names.Covers env σ)
      ((e :: es).map (convertItem elt)) (c.convert e.ty? elt :: Contents.convertAll elt es cs) :=
    EvaluatesTo.convertAll hitems elt
  have hlength := (List.forall₂_cons.1 hitems).2.length_eq
  have hshape : (c.convert e.ty? elt).shape = c.shape := Contents.shape_convert e.ty? elt c
  have hrest : (∀ c' ∈ Contents.convertAll elt es cs, c'.shape = (c.convert e.ty? elt).shape)
      ↔ ∀ c' ∈ cs, c'.shape = c.shape := by
    rw [hshape]
    exact Contents.forall_convertAll (· = c.shape) hlength elt
  by_cases hstretch : ∀ c' ∈ cs, Stretches c'.shape c.shape
  · obtain ⟨env', σ₂, w, hblock, hresult, hwelt, hwshape, hwflat⟩ :=
      exec_expandedLiteral_ok fuel elt hitems hranks hn hdims hstretch
    by_cases hsame : ∀ c' ∈ cs, c'.shape = c.shape
    · obtain ⟨v, σ₁, hliteral, hvelt, hvshape, hvflat⟩ :=
        exec_literal_ok elt rank hconverted (hrest.2 hsame)
      refine iff_of_true (.inl ⟨env', σ₁, σ₂, v, w, hliteral, hblock, hresult,
        hwelt.trans hvelt.symm, ?_, ?_⟩) fun _ => hsame
      · rw [hwshape, hvshape, hshape, Contents.length_convertAll hlength]
      · rw [hwflat, hvflat]
        exact Contents.flatMap_stretch
          (List.forall_mem_cons.2 ⟨hshape, fun c' hc' => (hrest.2 hsame c' hc').trans hshape⟩) elt
    · obtain ⟨stop, σ₁, hliteral⟩ :=
        exec_literal_error elt rank hconverted fun h => hsame (hrest.1 h)
      refine iff_of_false ?_ fun h => hsame (h hstretch)
      rintro (⟨_, _, _, _, _, hok, -⟩ | ⟨_, _, _, _, -, herror⟩)
      · cases hliteral.symm.trans hok
      · cases hblock.symm.trans herror
  · obtain ⟨stop, σ₂, hblock⟩ :=
      exec_expandedLiteral_error fuel elt hitems hranks hn hdims hstretch
    -- An item of the first shape could be stretched, so the literal fails as well.
    have hsome : ¬∀ c' ∈ cs, c'.shape = c.shape := fun h =>
      hstretch fun c' hc' => h c' hc' ▸ .refl c'.shape
    obtain ⟨stop', σ₁, hliteral⟩ :=
      exec_literal_error elt rank hconverted fun h => hsome (hrest.1 h)
    exact iff_of_true (.inr ⟨stop', stop, σ₁, σ₂, hliteral, hblock⟩) fun h => absurd h hstretch

end ArrayLang.Interpreter
