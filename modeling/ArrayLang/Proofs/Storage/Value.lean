import ArrayLang.Proofs.Storage.View
import ArrayLang.Value
import Mathlib.Data.List.Forall2

/-!
# Paired values

Values stand for each other when they have one form and their arrays are the same views of paired
blocks. Such values have the same text and types, and nothing that looks at them in paired stores can
tell them apart.
-/

/-- Related options are both there or both missing. -/
theorem Option.none_or_some_of_rel {α β : Type} {R : α → β → Prop} {a? : Option α} {b? : Option β}
    (h : Option.Rel R a? b?) :
    (a? = none ∧ b? = none) ∨ ∃ a b, a? = some a ∧ b? = some b ∧ R a b := by
  cases h with
  | none => exact .inl ⟨rfl, rfl⟩
  | some h => exact .inr ⟨_, _, rfl, rfl, h⟩

namespace ArrayLang

mutual
/-- The values have one form, and their arrays are the same views of paired blocks. -/
inductive Value.Paired (ρ : Pairing) : Value → Value → Prop
  | none : Paired ρ .none .none
  | scalar (x : Scalar) : Paired ρ (.scalar x) (.scalar x)
  | array {v : View} {c : Nat} (h : ρ v.block c) : Paired ρ (.array v) (.array (v.on c))
  | tuple {as bs : List Value} (h : Value.PairedAll ρ as bs) : Paired ρ (.tuple as) (.tuple bs)
  | struct (name : String) {as bs : List (String × Value)} (h : Value.PairedFields ρ as bs) :
    Paired ρ (.struct name as) (.struct name bs)
  | slice (x : Slice) : Paired ρ (.slice x) (.slice x)
  | closure (func : FnDef) {as bs : List Value} (h : Value.PairedAll ρ as bs) :
    Paired ρ (.closure func as) (.closure func bs)
  | op (o : Operator) : Paired ρ (.op o) (.op o)
  | host (id : Nat) (name : String) {as bs : List Value} (h : Value.PairedAll ρ as bs) :
    Paired ρ (.host id name as) (.host id name bs)

inductive Value.PairedAll (ρ : Pairing) : List Value → List Value → Prop
  | nil : PairedAll ρ [] []
  | cons {a b : Value} {as bs : List Value} (h : Value.Paired ρ a b)
    (hs : PairedAll ρ as bs) : PairedAll ρ (a :: as) (b :: bs)

inductive Value.PairedFields (ρ : Pairing) :
    List (String × Value) → List (String × Value) → Prop
  | nil : PairedFields ρ [] []
  | cons (name : String) {a b : Value} {as bs : List (String × Value)} (h : Value.Paired ρ a b)
    (hs : PairedFields ρ as bs) : PairedFields ρ ((name, a) :: as) ((name, b) :: bs)
end

namespace Value

variable {ρ ρ' : Pairing} {s t : Store} {v w : Value} {as bs : List Value}

/-! ## Larger pairings -/

mutual
theorem Paired.mono (hle : ρ ≤ ρ') : ∀ {v w : Value}, v.Paired ρ w → v.Paired ρ' w
  | _, _, .none => .none
  | _, _, .scalar x => .scalar x
  | _, _, .array h => .array (hle _ _ h)
  | _, _, .tuple h => .tuple (h.mono hle)
  | _, _, .struct name h => .struct name (h.mono hle)
  | _, _, .slice x => .slice x
  | _, _, .closure func h => .closure func (h.mono hle)
  | _, _, .op o => .op o
  | _, _, .host id name h => .host id name (h.mono hle)
termination_by structural _ _ h => h

theorem PairedAll.mono (hle : ρ ≤ ρ') :
    ∀ {as bs : List Value}, PairedAll ρ as bs → PairedAll ρ' as bs
  | _, _, .nil => .nil
  | _, _, .cons h hs => .cons (h.mono hle) (hs.mono hle)
termination_by structural _ _ h => h

theorem PairedFields.mono (hle : ρ ≤ ρ') :
    ∀ {as bs : List (String × Value)}, PairedFields ρ as bs → PairedFields ρ' as bs
  | _, _, .nil => .nil
  | _, _, .cons name h hs => .cons name (h.mono hle) (hs.mono hle)
termination_by structural _ _ h => h
end

mutual
/-- Only the value itself stands for a value in stores that number their blocks alike. -/
theorem Paired.eq (hd : ρ.Diagonal s t) : ∀ {v w : Value}, v.Paired ρ w → w = v
  | _, _, .none => rfl
  | _, _, .scalar _ => rfl
  | _, _, .array (v := v) h => congrArg (fun b => Value.array (v.on b)) (hd.eq h)
  | _, _, .tuple h => congrArg Value.tuple (h.eq hd)
  | _, _, .struct name h => congrArg (Value.struct name) (h.eq hd)
  | _, _, .slice _ => rfl
  | _, _, .closure func h => congrArg (Value.closure func) (h.eq hd)
  | _, _, .op _ => rfl
  | _, _, .host id name h => congrArg (Value.host id name) (h.eq hd)
termination_by structural _ _ h => h

theorem PairedAll.eq (hd : ρ.Diagonal s t) :
    ∀ {as bs : List Value}, PairedAll ρ as bs → bs = as
  | _, _, .nil => rfl
  | _, _, .cons h hs => congrArg₂ List.cons (h.eq hd) (hs.eq hd)
termination_by structural _ _ h => h

theorem PairedFields.eq (hd : ρ.Diagonal s t) :
    ∀ {as bs : List (String × Value)}, PairedFields ρ as bs → bs = as
  | _, _, .nil => rfl
  | _, _, .cons name h hs => congrArg₂ (fun v vs => (name, v) :: vs) (h.eq hd) (hs.eq hd)
termination_by structural _ _ h => h
end

/-- The values stand for each other by way of pairs that `ρ` does not have. -/
def PairedAnew (ρ ρ' : Pairing) (v w : Value) : Prop :=
  v.Paired (ρ'.without ρ) w

namespace PairedAnew

theorem paired (h : v.PairedAnew ρ ρ' w) : v.Paired ρ' w :=
  Paired.mono (fun _ _ hb => hb.1) h

theorem of_le {ρ₀ : Pairing} (h : v.PairedAnew ρ ρ' w) (hle : ρ₀ ≤ ρ) : v.PairedAnew ρ₀ ρ' w :=
  Paired.mono (fun _ _ hb => ⟨hb.1, fun h₀ => hb.2 (hle _ _ h₀)⟩) h

end PairedAnew

/-- The values stand for each other, and by way of new pairs if `p` holds. -/
structure PairedAnewIf (p : Prop) (ρ ρ' : Pairing) (v w : Value) : Prop where
  paired : v.Paired ρ' w
  anew : p → v.PairedAnew ρ ρ' w

namespace PairedAnewIf

variable {p : Prop}

theorem of_anew (h : v.PairedAnew ρ ρ' w) : v.PairedAnewIf p ρ ρ' w :=
  ⟨h.paired, fun _ => h⟩

theorem of_not (h : v.Paired ρ' w) (hp : ¬p) : v.PairedAnewIf p ρ ρ' w :=
  ⟨h, fun hp' => absurd hp' hp⟩

end PairedAnewIf

/-! ## Lists of values -/

theorem pairedAll_iff : PairedAll ρ as bs ↔ List.Forall₂ (Paired ρ) as bs := by
  constructor
  · intro h
    induction as generalizing bs with
    | nil =>
      cases h
      exact .nil
    | cons a as ih =>
      cases h with
      | cons h hs => exact .cons h (ih hs)
  · intro h
    induction h with
    | nil => exact .nil
    | cons h _ ih => exact .cons h ih

namespace PairedAll

theorem length (h : PairedAll ρ as bs) : bs.length = as.length :=
  (pairedAll_iff.1 h).length_eq.symm

theorem append {as' bs' : List Value} (h : PairedAll ρ as bs) (h' : PairedAll ρ as' bs') :
    PairedAll ρ (as ++ as') (bs ++ bs') :=
  pairedAll_iff.2 (List.rel_append (pairedAll_iff.1 h) (pairedAll_iff.1 h'))

/-- Paired values stand at the same positions. -/
theorem getElem? (h : PairedAll ρ as bs) (i : Nat) : Option.Rel (Paired ρ) as[i]? bs[i]? := by
  induction as generalizing bs i with
  | nil =>
    cases h
    exact .none
  | cons a as ih =>
    cases h with
    | cons h hs =>
      cases i with
      | zero => exact .some h
      | succ i => exact ih hs i

variable {α β : Type} {f g : Value → α}

/-- What is the same for values that stand for each other is the same for lists of them. -/
theorem map_eq (h : PairedAll ρ as bs) (hfg : ∀ {v w : Value}, v.Paired ρ w → g w = f v) :
    bs.map g = as.map f := by
  induction as generalizing bs with
  | nil =>
    cases h
    rfl
  | cons a as ih =>
    cases h with
    | cons h hs => rw [List.map_cons, List.map_cons, hfg h, ih hs]

theorem filterMap_eq {f g : Value → Option α} (h : PairedAll ρ as bs)
    (hfg : ∀ {v w : Value}, v.Paired ρ w → g w = f v) : bs.filterMap g = as.filterMap f := by
  have hmap := congrArg (List.filterMap id) (h.map_eq hfg)
  rw [List.filterMap_map, List.filterMap_map] at hmap
  exact hmap

theorem all_eq {f g : Value → Bool} (h : PairedAll ρ as bs)
    (hfg : ∀ {v w : Value}, v.Paired ρ w → g w = f v) : bs.all g = as.all f := by
  have hmap := congrArg (List.all · id) (h.map_eq hfg)
  simp only [List.all_map] at hmap
  exact hmap

theorem mapM_eq {m : Type → Type} [Monad m] [LawfulMonad m] {f g : Value → m α}
    (h : PairedAll ρ as bs) (hfg : ∀ {v w : Value}, v.Paired ρ w → g w = f v) :
    bs.mapM g = as.mapM f := by
  have hmap := congrArg (List.mapM id) (h.map_eq hfg)
  rw [List.mapM_map, List.mapM_map] at hmap
  exact hmap

theorem foldlM_eq {m : Type → Type} [Monad m] {f g : α → Value → m α} (h : PairedAll ρ as bs)
    (hfg : ∀ {a : α} {v w : Value}, v.Paired ρ w → g a w = f a v) (a : α) :
    bs.foldlM g a = as.foldlM f a := by
  induction as generalizing bs a with
  | nil =>
    cases h
    rfl
  | cons v as ih =>
    cases h with
    | cons h hs =>
      rw [List.foldlM_cons, List.foldlM_cons, hfg h]
      exact bind_congr fun a => ih hs a

end PairedAll

/-! ## Texts and types -/

mutual
theorem Paired.text (hs : ρ.Matches s t) : ∀ {v w : Value}, v.Paired ρ w → w.text t = v.text s
  | _, _, .none => rfl
  | _, _, .scalar x => rfl
  | _, _, .array (v := v) (c := c) h => by
    rw [Value.text, Value.text]
    have hcell : (fun index => ((v.on c).get t index).text) = fun index => (v.get s index).text :=
      funext fun index => by rw [View.get_on hs h]
    rw [hcell]
    rfl
  | _, _, .tuple h => by rw [Value.text, Value.text, h.texts hs]
  | _, _, .struct name h => by rw [Value.text, Value.text, h.texts hs]
  | _, _, .slice x => rfl
  | _, _, .closure func h => rfl
  | _, _, .op o => rfl
  | _, _, .host id name h => rfl
termination_by structural _ _ h => h

theorem PairedAll.texts (hs : ρ.Matches s t) :
    ∀ {as bs : List Value}, PairedAll ρ as bs → texts t bs = texts s as
  | _, _, .nil => rfl
  | _, _, .cons h hr => by rw [Value.texts, Value.texts, h.text hs, hr.texts hs]
termination_by structural _ _ h => h

theorem PairedFields.texts (hs : ρ.Matches s t) :
    ∀ {as bs : List (String × Value)}, PairedFields ρ as bs → fieldTexts t bs = fieldTexts s as
  | _, _, .nil => rfl
  | _, _, .cons name h hr => by rw [fieldTexts, fieldTexts, h.text hs, hr.texts hs]
termination_by structural _ _ h => h
end

theorem PairedAll.listText (hs : ρ.Matches s t) (h : PairedAll ρ as bs) :
    listText t bs = listText s as := by
  unfold Value.listText
  rw [h.texts hs]

theorem Paired.isScalar (h : v.Paired ρ w) : w.isScalar = v.isScalar := by
  cases h <;> rfl

theorem Paired.shape (h : v.Paired ρ w) : w.shape = v.shape := by
  cases h <;> rfl

/-- What paired views select stands for each other. -/
theorem ofView_paired (hs : ρ.Matches s t) {v : View} {c : Nat} (h : ρ v.block c) :
    (ofView s v).Paired ρ (ofView t (v.on c)) := by
  unfold ofView
  show Paired ρ _ (if v.rank = 0 then _ else _)
  split
  · rw [View.get_on hs h]
    exact .scalar _
  · exact .array h

/-- A constant stands for itself. -/
theorem ofLiteral_paired (ρ : Pairing) (value : Literal) :
    (ofLiteral value).Paired ρ (ofLiteral value) := by
  cases value with
  | none => exact .none
  | _ => exact .scalar _

theorem PairedFields.lookup {as bs : List (String × Value)} (h : PairedFields ρ as bs)
    (name : String) : Option.Rel (Paired ρ) (as.lookup name) (bs.lookup name) := by
  induction as generalizing bs with
  | nil =>
    cases h
    exact .none
  | cons a as ih =>
    cases h with
    | cons n h hs =>
      rw [List.lookup_cons, List.lookup_cons]
      cases name == n with
      | true => exact .some h
      | false => exact ih hs

end Value
end ArrayLang
