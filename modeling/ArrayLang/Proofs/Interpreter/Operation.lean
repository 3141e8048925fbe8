import ArrayLang.Interpreter.Operation
import ArrayLang.Proofs.Outcome
import ArrayLang.Proofs.Storage.Value

/-!
# Operations on paired values

Operators, subscripts, attributes and array literals have like outcomes on values that stand for each
other. The arrays that they make stand for each other in turn, and what they write is written to both
stores.
-/

namespace ArrayLang

open Outcome Pairing Value

variable {ρ : Pairing} {s t : Store} {v w : Value} {as bs : List Value}

/-- Two operations change paired stores alike and give related results. -/
def Pairing.Makes {α β : Type} (ρ : Pairing) (s t : Store) (Q : Pairing → α → β → Prop)
    (f : Store → α × Store) (g : Store → β × Store) : Prop :=
  ∃ ρ', Evolves ρ s t ρ' (f s).2 (g t).2 ∧ Q ρ' (f s).1 (g t).1

/-- A new array stands for the array that is made in the other store. -/
theorem newArray_makes {f g : Store → View × Store} (h : View.MakesAlike ρ s t f g) :
    ρ.Makes s t (PairedAnew ρ) (newArray f) (newArray g) := by
  refine ⟨_, h.evolves, ?_⟩
  show Paired _ (.array (f s).1) (.array (g t).1)
  rw [h.same]
  exact .array ⟨.inr ⟨rfl, rfl⟩, h.new⟩

/-! ## Subscripts -/

mutual
theorem subscripts?_paired :
    ∀ {v w : Value}, v.Paired ρ w → subscripts? w = subscripts? v
  | _, _, .tuple h => by rw [subscripts?, subscripts?, itemSubscripts?_paired h]
  | _, _, .scalar x => rfl
  | _, _, .slice x => rfl
  | _, _, .none => rfl
  | _, _, .array h => rfl
  | _, _, .struct name h => rfl
  | _, _, .closure func h => rfl
  | _, _, .op o => rfl
  | _, _, .host id name h => rfl
termination_by structural _ _ h => h

theorem itemSubscripts?_paired :
    ∀ {as bs : List Value}, PairedAll ρ as bs → itemSubscripts? bs = itemSubscripts? as
  | _, _, .nil => rfl
  | _, _, .cons h hs => by
    rw [itemSubscripts?, itemSubscripts?, subscripts?_paired h, itemSubscripts?_paired hs]
termination_by structural _ _ h => h
end

theorem sliceBound?_paired (h : v.Paired ρ w) : sliceBound? w = sliceBound? v := by
  cases h <;> rfl

theorem dim?_paired (h : v.Paired ρ w) : dims?.dim? w = dims?.dim? v := by
  cases h <;> rfl

theorem dims?_paired (h : v.Paired ρ w) : dims? w = dims? v := by
  cases h with
  | tuple h => exact h.mapM_eq dim?_paired
  | _ => rfl

theorem tupleItem?_paired {τ : Pairing} (has : PairedAll τ as bs) (h : v.Paired ρ w) :
    Option.Rel (Paired τ) (tupleItem? as v) (tupleItem? bs w) := by
  cases h with
  | scalar x =>
    cases x with
    | int n =>
      unfold tupleItem?
      rw [has.length]
      show Option.Rel _ (if 0 ≤ (if n.toInt < 0 then _ else _) then as[_]? else none)
        (if 0 ≤ (if n.toInt < 0 then _ else _) then bs[_]? else none)
      generalize (if n.toInt < 0 then n.toInt + (as.length : Int) else n.toInt) = i
      by_cases hi : 0 ≤ i
      · rw [if_pos hi, if_pos hi]
        exact has.getElem? _
      · rw [if_neg hi, if_neg hi]
        exact .none
    | _ => exact .none
  | _ => exact .none

/-! ## Selecting -/

variable {base base' index index' value value' : Value}

theorem indexValue_alike (hs : ρ.Matches s t) (hbase : base.Paired ρ base')
    (hindex : index.Paired ρ index') :
    Alike (Paired ρ) (indexValue s base index) (indexValue t base' index') := by
  unfold indexValue
  rw [hbase.text hs, hindex.text hs]
  cases hbase with
  | array hc =>
    rename_i v c
    unfold selection?
    dsimp only
    rw [subscripts?_paired hindex]
    cases subscripts? index with
    | none => exact .error _
    | some items =>
      show Alike _ (((v.select items).map (ofView s)).mapError _)
        ((((v.on c).select items).map (ofView t)).mapError _)
      rw [View.select_on]
      cases hselect : v.select items with
      | error e => exact .error _
      | ok w =>
        have hw : ρ w.block c := (View.select_block hselect).symm ▸ hc
        exact .ok (ofView_paired hs hw)
  | tuple h =>
    unfold selection?
    dsimp only
    rcases Option.none_or_some_of_rel (tupleItem?_paired h hindex) with ⟨ha, hb⟩ | ⟨a, b, ha, hb, hab⟩
    · rw [ha, hb]
      exact .error _
    · rw [ha, hb]
      exact .ok hab
  | _ => exact .error _

theorem attribute?_paired (h : base.Paired ρ base') (name : String) :
    Option.Rel (Paired ρ) (attribute? base name) (attribute? base' name) := by
  have hints (l : List Nat) : PairedAll ρ (l.map ofNat) (l.map ofNat) := by
    induction l with
    | nil => exact .nil
    | cons n l ih => exact .cons (.scalar _) ih
  have hint? (n? : Option Int64) : Paired ρ (ofInt? n?) (ofInt? n?) := by
    cases n? with
    | none => exact .none
    | some n => exact .scalar _
  cases h with
  | array h =>
    rename_i v c
    show Option.Rel _ (attribute? (.array v) name) (attribute? (.array v) name)
    unfold attribute?
    dsimp only
    split
    · exact .some (.tuple (hints _))
    · split
      · exact .some (.scalar _)
      · split
        · exact .some (.scalar _)
        · exact .none
  | slice x =>
    unfold attribute?
    dsimp only
    split
    · exact .some (hint? _)
    · split
      · exact .some (hint? _)
      · split
        · exact .some (hint? _)
        · exact .none
  | struct n h => exact h.lookup name
  | _ => exact .none

theorem attributeOf_alike (hs : ρ.Matches s t) (h : base.Paired ρ base') (name : String) :
    Alike (Paired ρ) (attributeOf s base name) (attributeOf t base' name) := by
  unfold attributeOf
  rw [h.text hs]
  rcases Option.none_or_some_of_rel (attribute?_paired h name) with ⟨ha, hb⟩ | ⟨a, b, ha, hb, hab⟩
  · rw [ha, hb]
    exact .error _
  · rw [ha, hb]
    exact .ok hab

/-! ## Writing -/

/-- Writing a value into a slot of an array writes the same to the paired slot. -/
theorem setCells_alike (hs : ρ.Matches s t) {slot src : View} {c c' : Nat}
    (hslot : ρ slot.block c) (hsrc : ρ src.block c') :
    Alike (fun f g => Evolves ρ s t ρ (f s) (g t)) ((slot.cellsFrom src s).map slot.setCells)
      (((slot.on c).cellsFrom (src.on c') t).map (slot.on c).setCells) := by
  rw [View.cellsFrom_on hs hsrc]
  exact (Alike.refl _ fun _ _ => rfl).map fun cells _ heq => heq ▸ View.setCells_on hs hslot cells

theorem assignIndex_alike (hs : ρ.Matches s t) (hbase : base.Paired ρ base')
    (hindex : index.Paired ρ index') (hvalue : value.Paired ρ value') :
    Alike (fun f g => Evolves ρ s t ρ (f s) (g t)) (assignIndex base index value s)
      (assignIndex base' index' value' t) := by
  unfold assignIndex
  rw [hbase.text hs, hindex.text hs]
  cases hbase with
  | array hc =>
    rename_i v c
    dsimp only
    rw [subscripts?_paired hindex]
    cases subscripts? index with
    | none => exact .error _
    | some items =>
      dsimp only
      rw [View.select_on]
      cases hselect : v.select items with
      | error e => exact .error _
      | ok slot =>
        have hslot : ρ slot.block c := (View.select_block hselect).symm ▸ hc
        cases hvalue with
        | scalar x => exact .ok (View.fill_on hs hslot x)
        | array hsrc => exact (setCells_alike hs hslot hsrc).mapError _
        | _ => exact .error _
  | _ => exact .error _

/-- A write that succeeds goes to the block of an array. -/
theorem assignIndex_touches {b k v : Value} {s : Store} {f : Store → Store}
    (h : assignIndex b k v s = .ok f) :
    ∃ view, b = .array view ∧ s.TouchesOnly (· = view.block) (f s) := by
  unfold assignIndex at h
  split at h
  · rename_i view
    refine ⟨view, rfl, ?_⟩
    split at h
    · cases h
    · rename_i items _
      cases hselect : view.select items with
      | error e =>
        rw [hselect] at h
        cases h
      | ok slot =>
        rw [hselect] at h
        have hblock : slot.block = view.block := View.select_block hselect
        rw [← hblock]
        cases v with
        | scalar x =>
          cases h
          exact slot.fill_touches x s
        | array src => exact View.cellsFrom_touches h
        | _ => cases h
  · cases h

/-! ## Operators -/

theorem operandTypes?_paired (h : PairedAll ρ as bs) : operandTypes? bs = operandTypes? as := by
  unfold operandTypes?
  refine h.mapM_eq fun h => ?_
  cases h <;> rfl

theorem operandAt_paired (hs : ρ.Matches s t) (index : List Nat) (h : v.Paired ρ w) :
    operandAt t index w = operandAt s index v := by
  cases h with
  | array hc => exact View.getBroadcast_on hs hc index
  | _ => rfl

/-- An operator computes the same from operands that stand for each other. -/
theorem applyOperator_paired (hs : ρ.Matches s t) (h : PairedAll ρ as bs) (op : Operator)
    (ty? : Option Ty) : applyOperator op bs ty? t = applyOperator op as ty? s := by
  have helts : operatorElts? op bs ty? = operatorElts? op as ty? := by
    unfold operatorElts?
    rw [operandTypes?_paired h]
  have hscalars := h.all_eq (f := isScalar) Paired.isScalar
  have hshapes := h.map_eq (f := Value.shape) Paired.shape
  have hcells (index : List Nat) := h.map_eq (operandAt_paired hs index)
  unfold applyOperator
  simp only [helts, h.listText hs, hscalars, hshapes, hcells]

/-- What an operator makes is a scalar or a new array. -/
theorem applyOperator_makes (hs : ρ.Matches s t) {op : Operator} {ty? : Option Ty} {s₀ : Store}
    {f : Store → Value × Store} (h : applyOperator op as ty? s₀ = .ok f) :
    ρ.Makes s t (PairedAnew ρ) f f := by
  unfold applyOperator at h
  split at h
  · dsimp only at h
    split at h
    · obtain ⟨x, -, hx⟩ := bind_eq_ok.1 h
      cases hx
      exact ⟨ρ, .refl hs, .scalar x⟩
    · split at h
      · cases h
      · obtain ⟨data, -, hdata⟩ := bind_eq_ok.1 h
        cases hdata
        exact newArray_makes (View.ofFlat_alike hs _ _ _)
  · cases h

theorem applyOperator_alike (hs : ρ.Matches s t) (h : PairedAll ρ as bs) (op : Operator)
    (ty? : Option Ty) :
    Alike (ρ.Makes s t (PairedAnew ρ)) (applyOperator op as ty? s) (applyOperator op bs ty? t) := by
  rw [applyOperator_paired hs h]
  exact .refl _ fun _ hf => applyOperator_makes hs hf

/-! ## Array literals -/

theorem literalElt?_paired (h : PairedAll ρ as bs) : literalElt? bs = literalElt? as := by
  unfold literalElt?
  dsimp only
  rw [h.filterMap_eq fun h => ?_]
  cases h <;> rfl

/-- An array literal is made of the same cells from items that stand for each other. -/
theorem arrayLiteral_paired (hs : ρ.Matches s t) (h : PairedAll ρ as bs) (ty? : Option Ty) :
    arrayLiteral bs ty? t = arrayLiteral as ty? s := by
  unfold arrayLiteral
  rw [literalElt?_paired h]
  dsimp only
  rw [h.mapM_eq fun {v w} h => ?_]
  have htext := h.text hs
  cases h with
  | array hc => exact congrArg (fun cells => Except.ok (_, cells)) (View.toFlat_on hs hc)
  | scalar x => rfl
  | _ =>
    dsimp only
    rw [htext]

theorem arrayLiteral_makes (hs : ρ.Matches s t) {ty? : Option Ty} {s₀ : Store}
    {f : Store → Value × Store} (h : arrayLiteral as ty? s₀ = .ok f) : ρ.Makes s t (PairedAnew ρ) f f := by
  unfold arrayLiteral at h
  obtain ⟨parts, -, h⟩ := bind_eq_ok.1 h
  obtain ⟨⟨shape, data⟩, -, h⟩ := bind_eq_ok.1 h
  cases h
  exact newArray_makes (View.ofFlat_alike hs _ _ _)

theorem arrayLiteral_alike (hs : ρ.Matches s t) (h : PairedAll ρ as bs) (ty? : Option Ty) :
    Alike (ρ.Makes s t (PairedAnew ρ)) (arrayLiteral as ty? s) (arrayLiteral bs ty? t) := by
  rw [arrayLiteral_paired hs h]
  exact .refl _ fun _ hf => arrayLiteral_makes hs hf

end ArrayLang
