import ArrayLang.Proofs.Syntax.Names
import ArrayLang.Syntax.Basic

/-!
# Types by their texts

The text of a type made of scalars, arrays, tuples and slices determines the type, also when other
text follows: after a type there is nothing or a delimiter. So the name of a specialization
determines the function's name and the types of its parameters. A structure is written by its name
alone and is not determined.
-/

namespace ArrayLang

/-! ## Text up to a delimiter -/

/-- The characters that end the text of a type, and the one that opens a list of types. -/
def isDelimiter (c : Char) : Bool :=
  c == ',' || c == '(' || c == ')' || c == ']'

theorem not_isDelimiter_of_isDigit {c : Char} (h : c.isDigit = true) : isDelimiter c = false := by
  refine Bool.eq_false_iff.2 fun hc => ?_
  simp only [isDelimiter, Bool.or_eq_true, beq_iff_eq] at hc
  rcases hc with ((rfl | rfl) | rfl) | rfl <;> exact absurd h (by decide)

/-- Nothing follows, or a delimiter. -/
def Delimited (x : List Char) : Prop :=
  ∀ c ∈ x.head?, isDelimiter c = true

theorem Delimited.nil : Delimited [] :=
  fun _ h => by cases h

theorem Delimited.cons {c : Char} (h : isDelimiter c = true) (x : List Char) :
    Delimited (c :: x) := by
  intro d hd
  cases hd
  exact h

theorem delimited_separator (x : List Char) : Delimited (", ".toList ++ x) :=
  .cons rfl _

/-- What stands before the first delimiter. -/
def lead (l : List Char) : List Char :=
  l.takeWhile fun c => !isDelimiter c

theorem lead_append {a x : List Char} (ha : ∀ c ∈ a, isDelimiter c = false) (hx : Delimited x) :
    lead (a ++ x) = a := by
  unfold lead
  rw [List.takeWhile_append_of_pos fun c hc => by rw [ha c hc]; rfl]
  cases x with
  | nil => exact List.append_nil a
  | cons c x =>
    have hc : isDelimiter c = true := hx c rfl
    rw [List.takeWhile_cons_of_neg (by rw [hc]; decide), List.append_nil]

namespace Ty

/-! ## Types that are written out -/

mutual
/-- The type has no structure and no closure in it. -/
def Plain : Ty → Prop
  | .none => True
  | .scalar _ => True
  | .array _ _ => True
  | .tuple items => AllPlain items
  | .struct _ _ => False
  | .slice start stop step => start.Plain ∧ stop.Plain ∧ step.Plain
  | .closure _ _ => False
termination_by structural t => t

/-- All of the types are plain. -/
def AllPlain : List Ty → Prop
  | [] => True
  | t :: ts => t.Plain ∧ AllPlain ts
termination_by structural ts => ts
end

mutual
/-- Decides whether a type is plain. -/
def decPlain : (t : Ty) → Decidable t.Plain
  | .none => .isTrue trivial
  | .scalar _ => .isTrue trivial
  | .array _ _ => .isTrue trivial
  | .tuple items => decAllPlain items
  | .struct _ _ => .isFalse id
  | .slice start stop step =>
    have := decPlain start
    have := decPlain stop
    have := decPlain step
    inferInstanceAs (Decidable (start.Plain ∧ stop.Plain ∧ step.Plain))
  | .closure _ _ => .isFalse id
termination_by structural t => t

def decAllPlain : (ts : List Ty) → Decidable (AllPlain ts)
  | [] => .isTrue trivial
  | t :: ts =>
    have := decPlain t
    have := decAllPlain ts
    inferInstanceAs (Decidable (t.Plain ∧ AllPlain ts))
termination_by structural ts => ts
end

instance : DecidablePred Plain := decPlain

instance : DecidablePred AllPlain := decAllPlain

/-! ## Atoms -/

theorem name_inj {a b : ElemType} (h : a.name.toList = b.name.toList) : a = b := by
  cases a <;> cases b <;> first | rfl | exact absurd h (by decide)

/-- A fixed text is checked by running over its characters. -/
theorem not_isDelimiter_of_all {l : List Char} (h : (l.all fun c => !isDelimiter c) = true) :
    ∀ c ∈ l, isDelimiter c = false := by
  intro c hc
  simpa using List.all_eq_true.1 h c hc

theorem not_isDelimiter_name (elt : ElemType) : ∀ c ∈ elt.name.toList, isDelimiter c = false :=
  not_isDelimiter_of_all (by cases elt <;> decide)

theorem toList_text_array (elt : ElemType) (rank : Nat) :
    (Ty.array elt rank).text.toList
      = "array".toList ++ ((toString rank).toList ++ '<' :: (elt.name.toList ++ ['>'])) := by
  simp [text, String.toList_append]

/-- The digits of a number are neither delimiters nor the bracket that follows a rank. -/
theorem isDigit_of_mem_toString {rank : Nat} {c : Char} (h : c ∈ (toString rank).toList) :
    c.isDigit = true := by
  rw [NameSupply.toList_toString] at h
  exact Nat.isDigit_of_mem_toDigits (by decide) (by decide) h

theorem not_isDelimiter_array (elt : ElemType) (rank : Nat) :
    ∀ c ∈ (Ty.array elt rank).text.toList, isDelimiter c = false := by
  intro c hc
  rw [toList_text_array] at hc
  simp only [List.mem_append, List.mem_cons, List.not_mem_nil, or_false] at hc
  rcases hc with hc | hc | rfl | hc | rfl
  · exact not_isDelimiter_of_all (by decide) c hc
  · exact not_isDelimiter_of_isDigit (isDigit_of_mem_toString hc)
  · rfl
  · exact not_isDelimiter_name elt c hc
  · rfl

/-- The rank ends where the element type begins. -/
theorem array_inj {a b : ElemType} {r s : Nat}
    (h : (Ty.array a r).text.toList = (Ty.array b s).text.toList) : a = b ∧ r = s := by
  rw [toList_text_array, toList_text_array] at h
  have hrest := List.append_cancel_left h
  have hdigits (n : Nat) (x : List Char) :
      ((toString n).toList ++ '<' :: x).takeWhile (·.isDigit) = (toString n).toList := by
    rw [List.takeWhile_append_of_pos fun c hc => isDigit_of_mem_toString hc,
      List.takeWhile_cons_of_neg (by decide), List.append_nil]
  have hrank : (toString r).toList = (toString s).toList := by
    rw [← hdigits r, hrest, hdigits]
  rw [hrank] at hrest
  have helt := List.append_cancel_right (List.cons.inj (List.append_cancel_left hrest)).2
  exact ⟨name_inj helt, NameSupply.toString_inj hrank⟩

/-! ## Tuples -/

/-- The text that follows an item of a tuple, other than the first of one item. -/
def itemsText : List Ty → List Char
  | [] => [')']
  | t :: ts => ", ".toList ++ (t.text.toList ++ itemsText ts)

/-- The text that follows the first item of a tuple. A tuple of one item keeps a comma. -/
def afterFirst : List Ty → List Char
  | [] => ",)".toList
  | t :: ts => itemsText (t :: ts)

theorem intercalate_texts (t : Ty) (ts : List Ty) :
    ", ".toList.intercalate ((texts (t :: ts)).map String.toList) ++ [')']
      = t.text.toList ++ itemsText ts := by
  induction ts generalizing t with
  | nil => simp [texts, itemsText, List.intercalate_singleton]
  | cons u us ih =>
    have hnext := ih u
    rw [texts, List.map_cons] at hnext
    rw [texts, texts, List.map_cons, List.map_cons, List.intercalate_cons_cons, List.append_assoc,
      hnext, itemsText, List.append_assoc]

theorem toList_text_tuple_cons (t : Ty) (ts : List Ty) :
    (Ty.tuple (t :: ts)).text.toList = '(' :: (t.text.toList ++ afterFirst ts) := by
  cases ts with
  | nil => simp [text, texts, afterFirst, String.toList_append]
  | cons u us =>
    have hlen : (t :: u :: us).length ≠ 1 := by simp
    rw [afterFirst, ← intercalate_texts, text]
    simp only [if_neg hlen, String.toList_append, String.toList_intercalate]
    rfl

theorem delimited_itemsText (ts : List Ty) (x : List Char) : Delimited (itemsText ts ++ x) := by
  cases ts with
  | nil => exact .cons rfl x
  | cons t ts => exact .cons rfl _

theorem delimited_afterFirst (ts : List Ty) (x : List Char) : Delimited (afterFirst ts ++ x) := by
  cases ts with
  | nil => exact .cons rfl _
  | cons t ts => exact delimited_itemsText (t :: ts) x

theorem toList_text_slice (a b c : Ty) :
    (Ty.slice a b c).text.toList
      = "slice".toList ++ '(' :: (a.text.toList ++ itemsText [b, c]) := by
  simp [text, itemsText, String.toList_append]

/-! ## What a text begins with -/

/-- What the text of a plain type begins with, up to the first delimiter. -/
def leadOf : Ty → List Char
  | .tuple _ => []
  | .slice _ _ _ => "slice".toList
  | t => t.text.toList

theorem lead_text {t : Ty} (ht : t.Plain) {x : List Char} (hx : Delimited x) :
    lead (t.text.toList ++ x) = leadOf t := by
  cases t with
  | none => exact lead_append (not_isDelimiter_of_all (by decide)) hx
  | scalar elt => exact lead_append (not_isDelimiter_name elt) hx
  | array elt rank => exact lead_append (not_isDelimiter_array elt rank) hx
  | tuple items =>
    cases items with
    | nil => rfl
    | cons t ts =>
      rw [toList_text_tuple_cons]
      rfl
  | slice a b c =>
    rw [toList_text_slice, List.append_assoc]
    exact lead_append (not_isDelimiter_of_all (by decide)) (.cons rfl _)
  | struct name fields => exact ht.elim
  | closure func captured => exact ht.elim

/-- The forms of types, numbered. -/
def form : Ty → Nat
  | .none => 0
  | .scalar _ => 1
  | .array _ _ => 2
  | .tuple _ => 3
  | .struct _ _ => 4
  | .slice _ _ _ => 5
  | .closure _ _ => 6

/-- The form of a plain type by the first character of its lead. -/
def formOfMark : Option Char → Nat
  | some 'n' => 0
  | some 'a' => 2
  | Option.none => 3
  | some 's' => 5
  | some _ => 1

theorem formOfMark_leadOf {t : Ty} (ht : t.Plain) : formOfMark (leadOf t).head? = t.form := by
  cases t with
  | none => rfl
  | scalar elt => cases elt <;> rfl
  | array elt rank =>
    show formOfMark (Ty.array elt rank).text.toList.head? = _
    rw [toList_text_array]
    rfl
  | tuple items => rfl
  | slice a b c => rfl
  | struct name fields => exact ht.elim
  | closure func captured => exact ht.elim

/-- The brackets that close a list of types. -/
def isClosing (c : Char) : Bool :=
  c == ')' || c == ']'

theorem exists_text_eq_cons {t : Ty} (ht : t.Plain) :
    ∃ c rest, t.text.toList = c :: rest ∧ isClosing c = false := by
  cases t with
  | none => exact ⟨_, _, rfl, rfl⟩
  | scalar elt => cases elt <;> exact ⟨_, _, rfl, rfl⟩
  | array elt rank => exact ⟨_, _, toList_text_array elt rank, rfl⟩
  | tuple items =>
    cases items with
    | nil => exact ⟨_, _, rfl, rfl⟩
    | cons t ts => exact ⟨_, _, toList_text_tuple_cons t ts, rfl⟩
  | slice a b c => exact ⟨_, _, toList_text_slice a b c, rfl⟩
  | struct name fields => exact ht.elim
  | closure func captured => exact ht.elim

/-- No type begins with a bracket that closes a list of types. -/
theorem text_append_ne_close {t : Ty} (ht : t.Plain) {x y : List Char} {c : Char}
    (hc : isClosing c = true) : t.text.toList ++ x ≠ c :: y := by
  intro h
  obtain ⟨d, rest, htext, hd⟩ := exists_text_eq_cons ht
  rw [htext] at h
  rw [(List.cons.inj h).1, hc] at hd
  cases hd

/-! ## Reading a text back -/

theorem leadOf_eq {a b : Ty} {x y : List Char} (ha : a.Plain) (hb : b.Plain) (hx : Delimited x)
    (hy : Delimited y) (h : a.text.toList ++ x = b.text.toList ++ y) : leadOf a = leadOf b := by
  rw [← lead_text ha hx, h, lead_text hb hy]

theorem form_eq {a b : Ty} (ha : a.Plain) (hb : b.Plain) (h : leadOf a = leadOf b) :
    a.form = b.form := by
  rw [← formOfMark_leadOf ha, h, formOfMark_leadOf hb]

mutual
/-- A plain type is determined by its text, whatever follows it. -/
theorem text_append_inj : ∀ (a : Ty) {b : Ty} {x y : List Char}, a.Plain → b.Plain → Delimited x →
    Delimited y → a.text.toList ++ x = b.text.toList ++ y → a = b ∧ x = y
  | .none, b, _, _, ha, hb, hx, hy, h => by
    have hform := form_eq ha hb (leadOf_eq ha hb hx hy h)
    cases b <;> try cases hform
    exact ⟨rfl, List.append_cancel_left h⟩
  | .scalar elt, b, _, _, ha, hb, hx, hy, h => by
    -- What stands before the first delimiter tells the form, and here the whole type.
    have hlead := leadOf_eq ha hb hx hy h
    have hform := form_eq ha hb hlead
    cases b <;> try cases hform
    rename_i elt'
    obtain rfl : elt = elt' := name_inj hlead
    exact ⟨rfl, List.append_cancel_left h⟩
  | .array elt rank, b, _, _, ha, hb, hx, hy, h => by
    have hlead := leadOf_eq ha hb hx hy h
    have hform := form_eq ha hb hlead
    cases b <;> try cases hform
    obtain ⟨rfl, rfl⟩ := array_inj hlead
    exact ⟨rfl, List.append_cancel_left h⟩
  | .tuple items, b, _, _, ha, hb, hx, hy, h => by
    have hform := form_eq ha hb (leadOf_eq ha hb hx hy h)
    cases b <;> try cases hform
    rename_i items'
    have hitems := tuple_append_inj items ha hb h
    exact ⟨congrArg Ty.tuple hitems.1, hitems.2⟩
  | .slice a₁ a₂ a₃, b, _, _, ha, hb, hx, hy, h => by
    have hform := form_eq ha hb (leadOf_eq ha hb hx hy h)
    cases b <;> try cases hform
    rename_i b₁ b₂ b₃
    -- The three parts are read off one after the other, each up to the delimiter behind it.
    simp only [toList_text_slice, itemsText, List.append_assoc, List.cons_append] at h
    have hfirst := text_append_inj a₁ ha.1 hb.1 (delimited_separator _) (delimited_separator _)
      (List.cons.inj (List.append_cancel_left h)).2
    have hsecond := text_append_inj a₂ ha.2.1 hb.2.1 (delimited_separator _)
      (delimited_separator _) (List.append_cancel_left hfirst.2)
    have hthird := text_append_inj a₃ ha.2.2 hb.2.2 (.cons rfl _) (.cons rfl _)
      (List.append_cancel_left hsecond.2)
    rw [hfirst.1, hsecond.1, hthird.1]
    exact ⟨rfl, (List.cons.inj hthird.2).2⟩
  | .struct _ _, _, _, _, ha, _, _, _, _ => ha.elim
  | .closure _ _, _, _, _, ha, _, _, _, _ => ha.elim
termination_by structural a => a

/-- The items that follow another in a tuple are determined by their text. -/
theorem itemsText_append_inj : ∀ (ts : List Ty) {us : List Ty} {x y : List Char}, AllPlain ts →
    AllPlain us → itemsText ts ++ x = itemsText us ++ y → ts = us ∧ x = y
  | [], [], _, _, _, _, h => ⟨rfl, (List.cons.inj h).2⟩
  | [], _ :: _, _, _, _, _, h => by cases (List.cons.inj h).1
  | _ :: _, [], _, _, _, _, h => by cases (List.cons.inj h).1
  | t :: ts, u :: us, x, y, ht, hu, h => by
    rw [itemsText, itemsText, List.append_assoc, List.append_assoc, List.append_assoc,
      List.append_assoc] at h
    have hfirst := text_append_inj t ht.1 hu.1 (delimited_itemsText ts x)
      (delimited_itemsText us y) (List.append_cancel_left h)
    have hrest := itemsText_append_inj ts ht.2 hu.2 hfirst.2
    exact ⟨by rw [hfirst.1, hrest.1], hrest.2⟩
termination_by structural ts => ts

/-- The items of a tuple are determined by its text. -/
theorem tuple_append_inj : ∀ (ts : List Ty) {us : List Ty} {x y : List Char}, AllPlain ts →
    AllPlain us → (Ty.tuple ts).text.toList ++ x = (Ty.tuple us).text.toList ++ y →
    ts = us ∧ x = y
  | [], [], _, _, _, _, h => ⟨rfl, List.append_cancel_left h⟩
  | [], u :: us, _, _, _, hu, h => by
    rw [toList_text_tuple_cons, List.cons_append, List.append_assoc] at h
    exact absurd (List.cons.inj h).2.symm (text_append_ne_close hu.1 rfl)
  | t :: ts, [], _, _, ht, _, h => by
    rw [toList_text_tuple_cons, List.cons_append, List.append_assoc] at h
    exact absurd (List.cons.inj h).2 (text_append_ne_close ht.1 rfl)
  | t :: ts, u :: us, x, y, ht, hu, h => by
    rw [toList_text_tuple_cons, toList_text_tuple_cons, List.cons_append, List.cons_append,
      List.append_assoc, List.append_assoc] at h
    have hfirst := text_append_inj t ht.1 hu.1 (delimited_afterFirst ts x)
      (delimited_afterFirst us y) (List.cons.inj h).2
    have hrest : ts = us ∧ x = y := by
      cases us with
      | nil =>
        cases ts with
        | nil => exact ⟨rfl, List.append_cancel_left hfirst.2⟩
        | cons t' ts => cases (List.cons.inj (List.cons.inj hfirst.2).2).1
      | cons u' us =>
        cases ts with
        | nil => cases (List.cons.inj (List.cons.inj hfirst.2).2).1
        | cons t' ts => exact itemsText_append_inj (t' :: ts) ht.2 hu.2 hfirst.2
    exact ⟨by rw [hfirst.1, hrest.1], hrest.2⟩
termination_by structural ts => ts
end

/-! ## The name of a specialization -/

/-- The text that follows a parameter's type in the name of a specialization. -/
def parametersText : List Ty → List Char
  | [] => [']']
  | t :: ts => ',' :: (t.text.toList ++ parametersText ts)

theorem delimited_parametersText (ts : List Ty) : Delimited (parametersText ts) := by
  cases ts with
  | nil => exact .cons rfl _
  | cons t ts => exact .cons rfl _

theorem intercalate_parameters (t : Ty) (ts : List Ty) :
    [','].intercalate ((texts (t :: ts)).map String.toList) ++ [']']
      = t.text.toList ++ parametersText ts := by
  induction ts generalizing t with
  | nil => simp [texts, parametersText, List.intercalate_singleton]
  | cons u us ih =>
    have hnext := ih u
    rw [texts, List.map_cons] at hnext
    rw [texts, texts, List.map_cons, List.map_cons, List.intercalate_cons_cons, List.append_assoc,
      hnext, parametersText, List.append_assoc]
    rfl

/-- The types of the parameters that follow another are determined by their text. -/
theorem parametersText_inj {ts us : List Ty} (ht : AllPlain ts) (hu : AllPlain us)
    (h : parametersText ts = parametersText us) : ts = us := by
  induction ts generalizing us with
  | nil =>
    cases us with
    | nil => rfl
    | cons u us => cases (List.cons.inj h).1
  | cons t ts ih =>
    cases us with
    | nil => cases (List.cons.inj h).1
    | cons u us =>
      have hfirst := text_append_inj t ht.1 hu.1 (delimited_parametersText ts)
        (delimited_parametersText us) (List.cons.inj h).2
      rw [hfirst.1, ih ht.2 hu.2 hfirst.2]

end Ty

/-- The bracketed list of types after the function's name. -/
def typesText : List Ty → List Char
  | [] => [']']
  | t :: ts => t.text.toList ++ Ty.parametersText ts

theorem toList_specializedName (name : String) (types : List Ty) :
    (specializedName name types).toList = name.toList ++ '[' :: typesText types := by
  cases types with
  | nil => simp [specializedName, typesText, Ty.texts, String.toList_append]
  | cons t ts =>
    rw [typesText, ← Ty.intercalate_parameters]
    simp [specializedName, String.toList_append, String.toList_intercalate]

theorem typesText_inj {ts us : List Ty} (ht : Ty.AllPlain ts) (hu : Ty.AllPlain us)
    (h : typesText ts = typesText us) : ts = us := by
  cases ts with
  | nil =>
    cases us with
    | nil => rfl
    | cons u us => exact absurd h.symm (Ty.text_append_ne_close hu.1 rfl)
  | cons t ts =>
    cases us with
    | nil => exact absurd h (Ty.text_append_ne_close ht.1 rfl)
    | cons u us =>
      have hfirst := Ty.text_append_inj t ht.1 hu.1 (Ty.delimited_parametersText ts)
        (Ty.delimited_parametersText us) h
      rw [hfirst.1, Ty.parametersText_inj ht.2 hu.2 hfirst.2]

/-- The name of a specialization determines the function and the types of its parameters, if the
function's name holds no bracket and the types are plain. -/
theorem specializedName_inj {name name' : String} {types types' : List Ty}
    (hname : '[' ∉ name.toList) (hname' : '[' ∉ name'.toList) (htypes : Ty.AllPlain types)
    (htypes' : Ty.AllPlain types') (h : specializedName name types = specializedName name' types') :
    name = name' ∧ types = types' := by
  have hchars := congrArg String.toList h
  rw [toList_specializedName, toList_specializedName] at hchars
  have hbefore (name : String) (hname : '[' ∉ name.toList) (x : List Char) :
      (name.toList ++ '[' :: x).takeWhile (· != '[') = name.toList := by
    have hall : ∀ c ∈ name.toList, (c != '[') = true := by
      intro c hc
      rw [bne_iff_ne]
      rintro rfl
      exact hname hc
    rw [List.takeWhile_append_of_pos hall, List.takeWhile_cons_of_neg (by decide),
      List.append_nil]
  have hnames : name.toList = name'.toList := by
    rw [← hbefore name hname, hchars, hbefore name' hname']
  rw [hnames] at hchars
  exact ⟨String.toList_inj.1 hnames,
    typesText_inj htypes htypes' (List.cons.inj (List.append_cancel_left hchars)).2⟩

end ArrayLang
