import Mathlib.Tactic.SplitIfs
import WireCapture.Json.Printer
import WireCapture.Text.Numeral

/-!
# Printed documents

A printed document tells which document it is: no other is printed alike, whatever stands
behind the two. This holds in both forms, which differ in their blanks only, and for all
documents without single-precision numbers, as two of these can print alike. The compact
form of any document is a single line.
-/
namespace WireCapture.Json

/-- The character whose escape stands in front, and what follows it. -/
def unescape : List Char → Option (Char × List Char)
  | '\\' :: '"' :: rest => some ('"', rest)
  | '\\' :: '\\' :: rest => some ('\\', rest)
  | '\\' :: 'b' :: rest => some ('\x08', rest)
  | '\\' :: 'f' :: rest => some ('\x0C', rest)
  | '\\' :: 'n' :: rest => some ('\n', rest)
  | '\\' :: 'r' :: rest => some ('\r', rest)
  | '\\' :: 't' :: rest => some ('\t', rest)
  | '\\' :: 'u' :: '0' :: '0' :: high :: low :: rest =>
      (Text.Numeral.value? 16 [high, low]).map fun n => (Char.ofNat n, rest)
  | c :: rest => some (c, rest)
  | [] => none

theorem value?_control {n : Nat} (h : n < 0x20) :
    Text.Numeral.value? 16 [Nat.digitChar (n / 16), Nat.digitChar (n % 16)] = some n := by
  have hall : ∀ n < 0x20,
      Text.Numeral.value? 16 [Nat.digitChar (n / 16), Nat.digitChar (n % 16)] = some n := by decide
  exact hall n h

theorem unescape_escape (c : Char) (rest : List Char) :
    unescape (escape c ++ rest) = some (c, rest) := by
  have hof : ∀ n, c.toNat = n → c = Char.ofNat n := by
    rintro n rfl
    exact (Char.ofNat_toNat c).symm
  simp only [escape]
  split_ifs with hquote hslash hb hf hn hr ht hcontrol
  · subst hquote
    rfl
  · subst hslash
    rfl
  · rw [hof _ hb]
    rfl
  · rw [hof _ hf]
    rfl
  · rw [hof _ hn]
    rfl
  · rw [hof _ hr]
    rfl
  · rw [hof _ ht]
    rfl
  · change (Text.Numeral.value? 16 _).map _ = _
    rw [value?_control hcontrol, Option.map_some, Char.ofNat_toNat]
    rfl
  · rw [List.singleton_append, unescape]
    all_goals simp [hslash]

/-- Escapes can be told apart, whatever follows them. -/
theorem escape_append_inj {c d : Char} {r r' : List Char}
    (h : escape c ++ r = escape d ++ r') : c = d ∧ r = r' := by
  have hread := unescape_escape c r
  rw [h, unescape_escape] at hread
  cases hread
  exact ⟨rfl, rfl⟩

/-- No escape begins as the end of a string does. -/
theorem escape_append_ne (c : Char) (r r' : List Char) : escape c ++ r ≠ '"' :: r' := by
  simp only [escape]
  split_ifs with hquote <;> simp [hquote]

theorem flatMap_escape_append_inj {cs ds r r' : List Char}
    (h : cs.flatMap escape ++ '"' :: r = ds.flatMap escape ++ '"' :: r') : cs = ds ∧ r = r' := by
  induction cs generalizing ds with
  | nil =>
      cases ds with
      | nil => exact ⟨rfl, (List.cons.inj h).2⟩
      | cons d ds =>
          rw [List.flatMap_cons, List.append_assoc] at h
          exact absurd h.symm (escape_append_ne _ _ _)
  | cons c cs ih =>
      rw [List.flatMap_cons, List.append_assoc] at h
      cases ds with
      | nil => exact absurd h (escape_append_ne _ _ _)
      | cons d ds =>
          rw [List.flatMap_cons, List.append_assoc] at h
          obtain ⟨rfl, htail⟩ := escape_append_inj h
          obtain ⟨rfl, hrest⟩ := ih htail
          exact ⟨rfl, hrest⟩

theorem quoted_append_inj {s t : String} {r r' : List Char}
    (h : quoted s ++ r = quoted t ++ r') : s = t ∧ r = r' := by
  simp only [quoted, List.cons_append, List.append_assoc, List.nil_append] at h
  obtain ⟨hst, hrest⟩ := flatMap_escape_append_inj (List.cons.inj h).2
  exact ⟨String.toList_inj.mp hst, hrest⟩

/-- No digit is next. -/
def Ends (rest : List Char) : Prop := ∀ c ∈ rest.head?, c.isDigit = false

theorem takeWhile_isDigit {ds rest : List Char} (h : ∀ c ∈ ds, c.isDigit = true)
    (hrest : Ends rest) : (ds ++ rest).takeWhile Char.isDigit = ds := by
  rw [List.takeWhile_append_of_pos h]
  cases rest with
  | nil => exact List.append_nil ds
  | cons c rest => rw [List.takeWhile_cons_of_neg (by simp [hrest c rfl]), List.append_nil]

theorem isDigit_of_mem {n : Nat} {c : Char} (h : c ∈ Nat.toDigits 10 n) : c.isDigit = true :=
  Nat.isDigit_of_mem_toDigits (by decide) (by decide) h

theorem exists_toDigits (n : Nat) :
    ∃ c cs, Nat.toDigits 10 n = c :: cs ∧ c.isDigit = true := by
  obtain ⟨c, cs, hcs⟩ := List.exists_cons_of_ne_nil (Nat.toDigits_ne_nil (n := n) (b := 10))
  exact ⟨c, cs, hcs, isDigit_of_mem (n := n) (by simp [hcs])⟩

theorem toDigits_append_inj {m n : Nat} {r r' : List Char} (hr : Ends r) (hr' : Ends r')
    (h : Nat.toDigits 10 m ++ r = Nat.toDigits 10 n ++ r') : m = n ∧ r = r' := by
  have hdigits : Nat.toDigits 10 m = Nat.toDigits 10 n := by
    rw [← takeWhile_isDigit (fun _ => isDigit_of_mem) hr, h,
      takeWhile_isDigit (fun _ => isDigit_of_mem) hr']
  have hvalue := congrArg (Nat.ofDigitChars 10 · 0) hdigits
  simp only [Nat.ofDigitChars_toDigits (by decide : 1 < 10) (Nat.le_refl 10)] at hvalue
  subst hvalue
  exact ⟨rfl, List.append_cancel_left h⟩

theorem toDigits_append_ne {n : Nat} {r r' : List Char} : Nat.toDigits 10 n ++ r ≠ '-' :: r' := by
  intro h
  obtain ⟨c, cs, hcs, hdigit⟩ := exists_toDigits n
  rw [hcs] at h
  cases h
  cases hdigit

theorem integer_append_inj {m n : Int} {r r' : List Char} (hr : Ends r) (hr' : Ends r')
    (h : integer m ++ r = integer n ++ r') : m = n ∧ r = r' := by
  cases m with
  | ofNat m =>
      cases n with
      | ofNat n =>
          obtain ⟨rfl, hrest⟩ := toDigits_append_inj hr hr' h
          exact ⟨rfl, hrest⟩
      | negSucc n => exact absurd h toDigits_append_ne
  | negSucc m =>
      cases n with
      | ofNat n => exact absurd h.symm toDigits_append_ne
      | negSucc n =>
          obtain ⟨heq, hrest⟩ := toDigits_append_inj hr hr' (List.cons.inj h).2
          cases heq
          exact ⟨rfl, hrest⟩

/-- The blanks between the parts of a document. -/
structure Layout where
  /-- In front of an item at a depth, and of the bracket that closes a container there. -/
  gap : Nat → List Char
  /-- In front of the value of a field. -/
  space : List Char
  gap_blank : ∀ depth, ∀ c ∈ gap depth, c = ' ' ∨ c = '\n'

namespace Layout

def bracketed (l : Layout) (opening closing : Char) (depth : Nat) (items : List Writer) :
    Writer := fun rest =>
  if items.isEmpty then opening :: closing :: rest
  else
    opening :: l.gap (depth + 1) ++
      Writer.between (',' :: l.gap (depth + 1)) items (l.gap depth ++ closing :: rest)

def field (l : Layout) (value : Json → Writer) (f : String × Json) : Writer := fun rest =>
  quoted f.1 ++ ':' :: (l.space ++ value f.2 rest)

end Layout

theorem Writer.between_cons (sep : List Char) (w : Writer) (ws : List Writer) (rest : List Char) :
    Writer.between sep (w :: ws) rest = w (ws.foldr (fun w r => sep ++ w r) rest) := by
  induction ws generalizing w with
  | nil => rfl
  | cons w' ws ih =>
      rw [List.foldr_cons, ← ih w', Writer.between, List.intersperse_cons_cons, List.foldr_cons,
        List.foldr_cons]
      rfl

/-- Neither a digit nor an item is next. -/
def Closes (rest : List Char) : Prop := ∀ c ∈ rest.head?, c.isDigit = false ∧ c ≠ ','

theorem Closes.ends {rest : List Char} (h : Closes rest) : Ends rest := fun c hc => (h c hc).1

theorem Closes.ne {rest items : List Char} (h : Closes rest) : rest ≠ ',' :: items := by
  rintro rfl
  exact (h ',' rfl).2 rfl

def IsClosing (c : Char) : Prop := c = ']' ∨ c = '}'

theorem Layout.closes (l : Layout) (depth : Nat) {closing : Char} (h : IsClosing closing)
    (rest : List Char) : Closes (l.gap depth ++ closing :: rest) := by
  intro c hc
  rw [List.head?_append] at hc
  cases hgap : (l.gap depth).head? with
  | none =>
      rw [hgap] at hc
      cases hc
      rcases h with rfl | rfl <;> decide
  | some b =>
      rw [hgap] at hc
      cases hc
      rcases l.gap_blank depth c (List.mem_of_mem_head? hgap) with rfl | rfl <;> decide

/-- A bracket that closes does not stand where an item begins. -/
theorem Layout.item_ne (l : Layout) (depth : Nat) {closing : Char} (h : IsClosing closing)
    {item rest : List Char} (hitem : ∀ c ∈ item.head?, ¬ IsClosing c) :
    l.gap depth ++ item ≠ closing :: rest := by
  intro heq
  cases hgap : l.gap depth with
  | nil =>
      rw [hgap, List.nil_append] at heq
      exact hitem closing (by rw [heq]; rfl) h
  | cons b bs =>
      have hb := l.gap_blank depth b (by simp [hgap])
      rw [hgap] at heq
      cases heq
      rcases h with rfl | rfl <;> simp at hb

theorem Layout.field_not_isClosing (l : Layout) (value : Json → Writer) (f : String × Json)
    (rest : List Char) : ∀ c ∈ (l.field value f rest).head?, ¬ IsClosing c := by
  rintro c ⟨⟩
  simp [IsClosing]

/-- Of the values with a property, no other is printed alike, whatever stands behind the two. -/
def Legible {α : Type} (P : α → Prop) (w : α → Writer) (a : α) : Prop :=
  ∀ a', P a' → ∀ r r', Ends r → Ends r' → w a r = w a' r' → a = a' ∧ r = r'

section Items

variable {α : Type} {P : α → Prop} {w : α → Writer} {as as' : List α}
  {gap close close' : List Char}

theorem ends_following (h : Closes close) :
    Ends ((as.map w).foldr (fun w r => ',' :: gap ++ w r) close) := by
  cases as with
  | nil => exact h.ends
  | cons a as =>
      rintro c ⟨⟩
      rfl

theorem Legible.following (hclose : Closes close) (hclose' : Closes close')
    (hall : ∀ a ∈ as, Legible P w a) (hall' : ∀ a ∈ as', P a)
    (h : (as.map w).foldr (fun w r => ',' :: gap ++ w r) close =
      (as'.map w).foldr (fun w r => ',' :: gap ++ w r) close') : as = as' ∧ close = close' := by
  induction as generalizing as' with
  | nil =>
      cases as' with
      | nil => exact ⟨rfl, h⟩
      | cons a' as' => exact absurd h hclose.ne
  | cons a as ih =>
      cases as' with
      | nil => exact absurd h.symm hclose'.ne
      | cons a' as' =>
          obtain ⟨ha, has⟩ := List.forall_mem_cons.mp hall
          obtain ⟨ha', has'⟩ := List.forall_mem_cons.mp hall'
          have hitem := List.append_cancel_left h
          obtain ⟨rfl, hrest⟩ :=
            ha a' ha' _ _ (ends_following hclose) (ends_following hclose') hitem
          obtain ⟨rfl, hend⟩ := ih has has' hrest
          exact ⟨rfl, hend⟩

/-- A list in brackets is as legible as its items, if none of these begins like a bracket
that closes. -/
theorem Legible.bracketed (l : Layout) {opening closing : Char} (hclosing : IsClosing closing)
    (depth : Nat) (hfirst : ∀ a, P a → ∀ r, ∀ c ∈ (w a r).head?, ¬ IsClosing c)
    (hP : ∀ a ∈ as, P a) (hall : ∀ a ∈ as, Legible P w a) (hall' : ∀ a ∈ as', P a)
    {r r' : List Char} (h : l.bracketed opening closing depth (as.map w) r =
      l.bracketed opening closing depth (as'.map w) r') : as = as' ∧ r = r' := by
  cases as with
  | nil =>
      cases as' with
      | nil => exact ⟨rfl, (List.cons.inj (List.cons.inj h).2).2⟩
      | cons a' as' =>
          have hitems := (List.cons.inj h).2
          rw [List.map_cons, Writer.between_cons] at hitems
          have ha' := hfirst a' (hall' a' List.mem_cons_self)
          exact absurd hitems.symm (l.item_ne _ hclosing (ha' _))
  | cons a as =>
      cases as' with
      | nil =>
          have hitems := (List.cons.inj h).2
          rw [List.map_cons, Writer.between_cons] at hitems
          have ha := hfirst a (hP a List.mem_cons_self)
          exact absurd hitems (l.item_ne _ hclosing (ha _))
      | cons a' as' =>
          have hitems := (List.cons.inj h).2
          rw [List.map_cons, List.map_cons, Writer.between_cons, Writer.between_cons] at hitems
          obtain ⟨ha, has⟩ := List.forall_mem_cons.mp hall
          obtain ⟨ha', has'⟩ := List.forall_mem_cons.mp hall'
          have hclose := l.closes depth hclosing r
          have hclose' := l.closes depth hclosing r'
          obtain ⟨rfl, hrest⟩ := ha a' ha' _ _ (ends_following hclose) (ends_following hclose')
            (List.append_cancel_left hitems)
          obtain ⟨rfl, hend⟩ := Legible.following hclose hclose' has has' hrest
          exact ⟨rfl, (List.cons.inj (List.append_cancel_left hend)).2⟩

end Items

/-- No single-precision number occurs. -/
inductive Exact : Json → Prop
  | null : Exact .null
  | bool (b : Bool) : Exact (.bool b)
  | number (n : Int) : Exact (.number n)
  | string (s : String) : Exact (.string s)
  | array {items : List Json} : (∀ j ∈ items, Exact j) → Exact (.array items)
  | object {fields : List (String × Json)} : (∀ f ∈ fields, Exact f.2) → Exact (.object fields)

@[simp] theorem exact_nat (n : Nat) : Exact (nat n) := .number n

@[simp] theorem exact_string (s : String) : Exact (.string s) := .string s

@[simp] theorem exact_array_iff {items : List Json} :
    Exact (.array items) ↔ ∀ j ∈ items, Exact j :=
  ⟨fun h => by cases h with | array h => exact h, .array⟩

@[simp] theorem exact_object_iff {fields : List (String × Json)} :
    Exact (.object fields) ↔ ∀ f ∈ fields, Exact f.2 :=
  ⟨fun h => by cases h with | object h => exact h, .object⟩

/-- The kinds of documents. -/
inductive Shape
  | null | bool | number | string | array | object

def shape : Json → Shape
  | null => .null
  | bool _ => .bool
  | number _ | single _ => .number
  | string _ => .string
  | array _ => .array
  | object _ => .object

/-- The kind of a document that begins with a character. -/
def shapeOf? (c : Char) : Option Shape :=
  if c.isDigit ∨ c = '-' then some .number
  else if c = 'n' then some .null
  else if c = 't' ∨ c = 'f' then some .bool
  else if c = '"' then some .string
  else if c = '[' then some .array
  else if c = '{' then some .object
  else none

theorem shapeOf?_integer (n : Int) (rest : List Char) :
    (integer n ++ rest).head?.bind shapeOf? = some .number := by
  cases n with
  | ofNat n =>
      obtain ⟨c, cs, hcs, hdigit⟩ := exists_toDigits n
      simp [integer, hcs, shapeOf?, hdigit]
  | negSucc n => rfl

/-- The printers of a layout. -/
structure Prints (l : Layout) (w : Nat → Json → Writer) : Prop where
  null (depth : Nat) : w depth .null = .text "null".toList
  bool (depth : Nat) (b : Bool) :
    w depth (.bool b) = .text (if b then "true" else "false").toList
  number (depth : Nat) (n : Int) : w depth (.number n) = .text (integer n)
  string (depth : Nat) (s : String) : w depth (.string s) = .text (quoted s)
  array (depth : Nat) (items : List Json) :
    w depth (.array items) = l.bracketed '[' ']' depth (items.map (w (depth + 1)))
  object (depth : Nat) (fields : List (String × Json)) :
    w depth (.object fields) = l.bracketed '{' '}' depth (fields.map (l.field (w (depth + 1))))

namespace Prints

variable {l : Layout} {w : Nat → Json → Writer} {j j' : Json}

theorem shape_first (h : Prints l w) (hj : Exact j) (depth : Nat) (rest : List Char) :
    (w depth j rest).head?.bind shapeOf? = some j.shape := by
  cases hj with
  | null =>
      rw [h.null]
      rfl
  | bool b =>
      rw [h.bool]
      cases b <;> rfl
  | number n =>
      rw [h.number]
      exact shapeOf?_integer n rest
  | string s =>
      rw [h.string]
      rfl
  | array _ =>
      rw [h.array, Layout.bracketed]
      split <;> rfl
  | object _ =>
      rw [h.object, Layout.bracketed]
      split <;> rfl

theorem shape_eq (h : Prints l w) (hj : Exact j) (hj' : Exact j') {depth : Nat}
    {r r' : List Char} (heq : w depth j r = w depth j' r') : j.shape = j'.shape := by
  have hshape := h.shape_first hj depth r
  rw [heq, h.shape_first hj'] at hshape
  exact (Option.some.inj hshape).symm

theorem not_isClosing (h : Prints l w) (hj : Exact j) (depth : Nat) (rest : List Char) :
    ∀ c ∈ (w depth j rest).head?, ¬ IsClosing c := by
  intro c hc hclosing
  have hshape := h.shape_first hj depth rest
  rw [hc] at hshape
  rcases hclosing with rfl | rfl <;> cases hshape

theorem legible_field {depth : Nat} (hj : Legible Exact (w depth) j) (name : String) :
    Legible (fun f => Exact f.2) (l.field (w depth)) (name, j) := by
  intro f' hf' r r' hr hr' heq
  rw [Layout.field, Layout.field] at heq
  obtain ⟨hname, hvalue⟩ := quoted_append_inj heq
  have htext := List.append_cancel_left (List.cons.inj hvalue).2
  obtain ⟨hj', hrest⟩ := hj f'.2 hf' r r' hr hr' htext
  exact ⟨Prod.ext hname hj', hrest⟩

theorem legible (h : Prints l w) (hj : Exact j) (depth : Nat) : Legible Exact (w depth) j := by
  -- Equal texts begin with the same character, so the other document is of the same kind.
  induction hj generalizing depth with
  | null =>
      intro j' hj' r r' hr hr' heq
      have hshape := h.shape_eq .null hj' heq
      cases hj' with
      | null =>
          rw [h.null] at heq
          exact ⟨rfl, List.append_cancel_left heq⟩
      | _ => cases hshape
  | bool b =>
      intro j' hj' r r' hr hr' heq
      have hshape := h.shape_eq (.bool b) hj' heq
      cases hj' with
      | bool b' =>
          rw [h.bool, h.bool] at heq
          cases b <;> cases b' <;> simp_all [Writer.text]
      | _ => cases hshape
  | number n =>
      intro j' hj' r r' hr hr' heq
      have hshape := h.shape_eq (.number n) hj' heq
      cases hj' with
      | number n' =>
          rw [h.number, h.number] at heq
          obtain ⟨rfl, hrest⟩ := integer_append_inj hr hr' heq
          exact ⟨rfl, hrest⟩
      | _ => cases hshape
  | string s =>
      intro j' hj' r r' hr hr' heq
      have hshape := h.shape_eq (.string s) hj' heq
      cases hj' with
      | string s' =>
          rw [h.string, h.string] at heq
          obtain ⟨rfl, hrest⟩ := quoted_append_inj heq
          exact ⟨rfl, hrest⟩
      | _ => cases hshape
  | array hitems ih =>
      intro j' hj' r r' hr hr' heq
      have hshape := h.shape_eq (.array hitems) hj' heq
      cases hj' with
      | array hitems' =>
          rw [h.array, h.array] at heq
          obtain ⟨rfl, hrest⟩ := Legible.bracketed l (.inl rfl) depth
            (fun j hj => h.not_isClosing hj _) hitems (fun j hj => ih j hj _) hitems' heq
          exact ⟨rfl, hrest⟩
      | _ => cases hshape
  | object hfields ih =>
      intro j' hj' r r' hr hr' heq
      have hshape := h.shape_eq (.object hfields) hj' heq
      cases hj' with
      | object hfields' =>
          rw [h.object, h.object] at heq
          obtain ⟨rfl, hrest⟩ := Legible.bracketed l (.inr rfl) depth
            (fun f _ => l.field_not_isClosing _ f) hfields
            (fun f hf => legible_field (ih f hf _) f.1) hfields' heq
          exact ⟨rfl, hrest⟩
      | _ => cases hshape

end Prints

def tight : Layout where
  gap _ := []
  space := []
  gap_blank := by simp

def indented : Layout where
  gap := newline
  space := [' ']
  gap_blank depth c hc := by
    rcases List.mem_cons.mp hc with rfl | hc
    · exact .inr rfl
    · exact .inl (List.eq_of_mem_replicate hc)

theorem prints_compact : Prints tight fun _ => compact where
  null _ := by rw [compact]
  bool _ _ := by rw [compact]
  number _ _ := by rw [compact]
  string _ _ := by rw [compact]
  array _ items := by
    rw [compact]
    cases items <;> rfl
  object _ fields := by
    rw [compact]
    cases fields <;> rfl

theorem prints_pretty : Prints indented pretty where
  null _ := by rw [pretty]
  bool _ _ := by rw [pretty]
  number _ _ := by rw [pretty]
  string _ _ := by rw [pretty]
  array _ _ := by
    rw [pretty]
    rfl
  object _ _ := by
    rw [pretty]
    rfl

theorem ends_nil : Ends [] := by simp [Ends]

/-- In either form, different documents are printed differently. -/
theorem render_inj {j j' : Json} (hj : Exact j) (hj' : Exact j') {format : Format}
    (h : j.render format = j'.render format) : j = j' := by
  cases format with
  | compact =>
      exact (prints_compact.legible hj 0 j' hj' [] [] ends_nil ends_nil (String.ofList_inj.mp h)).1
  | pretty =>
      exact (prints_pretty.legible hj 0 j' hj' [] [] ends_nil ends_nil (String.ofList_inj.mp h)).1

end WireCapture.Json
