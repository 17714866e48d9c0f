import LetterMachine.Json
import LetterMachine.Proofs.ValueTexts
import Mathlib.Data.List.Basic

/-!
# Texts in JSON

A text in JSON is made of the tokens of its datum, with blanks anywhere between them: `JsonText`.
Of a serialiser no more is known than that its texts are of this kind, the compact ones without
blanks, that its integers are decimal, and that its doubles are told apart by their texts, in which
there is a point or an exponent: `Spelling.Faithful` and `Serializer.Writes`.

Without its blanks every text of a datum is the same.  So there is only one compact text, and the
indented text differs from it in blanks only.
-/

namespace LetterMachine

/-! ## Lists -/

theorem filter_intercalate {α : Type} (keep : α → Bool) (separator : List α)
    (parts : List (List α)) : (separator.intercalate parts).filter keep =
      (separator.filter keep).intercalate (parts.map (List.filter keep)) := by
  induction parts with
  | nil => rfl
  | cons part parts ih =>
      by_cases hlast : parts = []
      · simp [hlast]
      · have hlast' : parts.map (List.filter keep) ≠ [] := by simpa using hlast
        rw [List.map_cons, List.intercalate_cons_of_ne_nil hlast,
          List.intercalate_cons_of_ne_nil hlast', List.filter_append, List.filter_append, ih]

/-! ## What is written -/

/-- White space between the tokens of a text. -/
def IsBlank (text : List Char) : Prop :=
  ∀ c ∈ text, c ∈ [' ', '\n', '\r', '\t']

/-- Nothing between the tokens of a text. -/
def IsNothing (text : List Char) : Prop :=
  text = []

/-- Characters that are not white space. -/
def isInk (c : Char) : Bool :=
  !c.isWhitespace

section Texts

variable (spelling : Spelling) (Blank : List Char → Prop)

mutual

/-- The texts of a datum, with blanks of a kind between the tokens. -/
inductive JsonText : Datum → List Char → Prop where
  | integer (number : Int64) : JsonText (.integer number) (Decimal.integer number.toInt)
  | float (number : Binary64) : JsonText (.float number) (spelling.double number)
  | list {data : List Datum} {items : List (List Char)} {blank : List Char}
      (hitems : JsonItems data items) (hblank : Blank blank) :
      JsonText (.list data) ('[' :: ([','].intercalate items ++ blank ++ [']']))
  | map {entries : List (String × Datum)} {items : List (List Char)} {blank : List Char}
      (hitems : JsonEntries entries items) (hblank : Blank blank) :
      JsonText (.map entries) ('\x7b' :: ([','].intercalate items ++ blank ++ ['\x7d']))

inductive JsonItems : List Datum → List (List Char) → Prop where
  | nil : JsonItems [] []
  | cons {datum : Datum} {data : List Datum} {before item after : List Char}
      {items : List (List Char)} (hbefore : Blank before) (hitem : JsonText datum item)
      (hafter : Blank after) (hitems : JsonItems data items) :
      JsonItems (datum :: data) ((before ++ item ++ after) :: items)

inductive JsonEntries : List (String × Datum) → List (List Char) → Prop where
  | nil : JsonEntries [] []
  | cons (key : String) {datum : Datum} {entries : List (String × Datum)}
      {before behind between item after : List Char} {items : List (List Char)}
      (hbefore : Blank before) (hbehind : Blank behind) (hbetween : Blank between)
      (hitem : JsonText datum item) (hafter : Blank after) (hitems : JsonEntries entries items) :
      JsonEntries ((key, datum) :: entries)
        ((before ++ spelling.key key ++ behind ++ ':' :: (between ++ item ++ after)) :: items)

end

end Texts

/-- What is known of the spelling of keys and of doubles. -/
structure Spelling.Faithful (spelling : Spelling) : Prop where
  /-- Letters and digits are not escaped. -/
  key_eq : ∀ {key : String}, (∀ c ∈ key.toList, c.isAlphanum = true) →
    spelling.key key = '"' :: (key.toList ++ ['"'])
  isNumber : ∀ {number : Binary64}, number.IsFinite → ∀ c ∈ spelling.float number,
    Decimal.inNumber c = true
  mark_mem : ∀ {number : Binary64}, number.IsFinite →
    '.' ∈ spelling.float number ∨ 'e' ∈ spelling.float number
  injective : ∀ {left right : Binary64}, left.IsFinite → right.IsFinite →
    spelling.float left = spelling.float right → left = right

/-- Every datum is written, on one line without blanks and on several with them. -/
structure Serializer.Writes (serializer : Serializer) (spelling : Spelling) : Prop where
  compact : ∀ datum, ∃ text, serializer.compact datum = .ok text ∧
    JsonText spelling IsNothing datum text.toList
  indented : ∀ datum, ∃ text, serializer.indented datum = .ok text ∧
    JsonText spelling IsBlank datum text.toList

/-! ## Without blanks -/

namespace Datum

mutual

/-- The keys of all maps in a datum are made of letters and digits. -/
def KeysPlain : Datum → Prop
  | .integer _ => True
  | .float _ => True
  | .list data => ItemsPlain data
  | .map entries => EntriesPlain entries

def ItemsPlain : List Datum → Prop
  | [] => True
  | datum :: data => datum.KeysPlain ∧ ItemsPlain data

def EntriesPlain : List (String × Datum) → Prop
  | [] => True
  | (key, datum) :: entries =>
    (∀ c ∈ key.toList, c.isAlphanum = true) ∧ datum.KeysPlain ∧ EntriesPlain entries

end

end Datum

theorem filter_isInk_of_isBlank {text : List Char} (hblank : IsBlank text) :
    text.filter isInk = [] := by
  rw [List.filter_eq_nil_iff]
  intro c hmem
  have hc := hblank c hmem
  simp only [List.mem_cons, List.not_mem_nil, or_false] at hc
  rcases hc with rfl | rfl | rfl | rfl <;> decide

theorem isInk_of_inNumeral {c : Char} (hnumeral : Decimal.inNumeral c = true) :
    isInk c = true := by
  rw [isInk, Bool.not_eq_true']
  by_contra hwhite
  simp only [Char.isWhitespace, Bool.not_eq_false, Bool.or_eq_true, decide_eq_true_eq] at hwhite
  rcases hwhite with ((rfl | rfl) | rfl) | rfl <;> exact absurd hnumeral (by decide)

namespace Spelling.Faithful

variable {spelling : Spelling}

theorem inNumeral_double (hspelling : spelling.Faithful) (number : Binary64) :
    ∀ c ∈ spelling.double number, Decimal.inNumeral c = true := by
  cases number with
  | finite negative magnitude =>
      intro c hmem
      have hfinite : (Binary64.finite negative magnitude).IsFinite := trivial
      exact Decimal.inNumeral_of_inNumber (hspelling.isNumber hfinite c hmem)
  | nan | infinite =>
      have hword : ['n', 'u', 'l', 'l'].all Decimal.inNumeral = true := by decide
      exact List.all_eq_true.mp hword

theorem isInk_key (hspelling : spelling.Faithful) {key : String}
    (hkey : ∀ c ∈ key.toList, c.isAlphanum = true) : ∀ c ∈ spelling.key key, isInk c = true := by
  have hletters : ∀ c ∈ key.toList, isInk c = true := fun c hmem =>
    isInk_of_inNumeral (Decimal.inNumeral_of_isAlphanum (hkey c hmem))
  have hquote : isInk '"' = true := by decide
  rw [hspelling.key_eq hkey, List.forall_mem_cons, List.forall_mem_append,
    List.forall_mem_singleton]
  exact ⟨hquote, hletters, hquote⟩

end Spelling.Faithful

section Filter

variable {spelling : Spelling} {Blank : List Char → Prop} {keep : Char → Bool}

mutual

/-- A text without its blanks, if what is deleted are the blanks and nothing else. -/
theorem filter_jsonText (hspelling : spelling.Faithful)
    (hkeep : ∀ c, isInk c = true → keep c = true)
    (hblank : ∀ {text}, Blank text → text.filter keep = []) {datum : Datum} {text : List Char}
    (hplain : datum.KeysPlain) :
    JsonText spelling Blank datum text → text.filter keep = datum.compactText spelling
  | .integer number => by
      rw [Datum.compactText, List.filter_eq_self]
      intro c hmem
      have hnumber := (Decimal.integerText_integer number.toInt).inNumber c hmem
      exact hkeep c (isInk_of_inNumeral (Decimal.inNumeral_of_inNumber hnumber))
  | .float number => by
      rw [Datum.compactText, List.filter_eq_self]
      intro c hmem
      exact hkeep c (isInk_of_inNumeral (hspelling.inNumeral_double number c hmem))
  | .list hitems hend => by
      have hopen := hkeep '[' (by decide)
      have hcomma := hkeep ',' (by decide)
      have hclose := hkeep ']' (by decide)
      rw [Datum.compactText, List.filter_cons_of_pos hopen, List.filter_append,
        List.filter_append, filter_intercalate,
        filter_jsonItems hspelling hkeep hblank hplain hitems, hblank hend, List.append_nil,
        List.filter_cons_of_pos hcomma, List.filter_cons_of_pos hclose]
      rfl
  | .map hitems hend => by
      have hopen := hkeep '\x7b' (by decide)
      have hcomma := hkeep ',' (by decide)
      have hclose := hkeep '\x7d' (by decide)
      rw [Datum.compactText, List.filter_cons_of_pos hopen, List.filter_append,
        List.filter_append, filter_intercalate,
        filter_jsonEntries hspelling hkeep hblank hplain hitems, hblank hend, List.append_nil,
        List.filter_cons_of_pos hcomma, List.filter_cons_of_pos hclose]
      rfl

theorem filter_jsonItems (hspelling : spelling.Faithful)
    (hkeep : ∀ c, isInk c = true → keep c = true)
    (hblank : ∀ {text}, Blank text → text.filter keep = []) {data : List Datum}
    {items : List (List Char)} (hplain : Datum.ItemsPlain data) :
    JsonItems spelling Blank data items →
      items.map (List.filter keep) = Datum.compactItems spelling data
  | .nil => rfl
  | .cons hbefore hitem hafter hitems => by
      rw [List.map_cons, List.filter_append, List.filter_append, hblank hbefore, hblank hafter,
        filter_jsonText hspelling hkeep hblank hplain.1 hitem,
        filter_jsonItems hspelling hkeep hblank hplain.2 hitems, List.nil_append,
        List.append_nil, Datum.compactItems]

theorem filter_jsonEntries (hspelling : spelling.Faithful)
    (hkeep : ∀ c, isInk c = true → keep c = true)
    (hblank : ∀ {text}, Blank text → text.filter keep = []) {entries : List (String × Datum)}
    {items : List (List Char)} (hplain : Datum.EntriesPlain entries) :
    JsonEntries spelling Blank entries items →
      items.map (List.filter keep) = Datum.compactEntries spelling entries
  | .nil => rfl
  | .cons key hbefore hbehind hbetween hitem hafter hitems => by
      have hcolon := hkeep ':' (by decide)
      have hkey : (spelling.key key).filter keep = spelling.key key :=
        List.filter_eq_self.mpr fun c hmem => hkeep c (hspelling.isInk_key hplain.1 c hmem)
      rw [List.map_cons, List.filter_append, List.filter_append, List.filter_append,
        List.filter_cons_of_pos hcolon, List.filter_append, List.filter_append, hblank hbefore,
        hblank hbehind, hblank hbetween, hblank hafter, hkey,
        filter_jsonText hspelling hkeep hblank hplain.2.1 hitem,
        filter_jsonEntries hspelling hkeep hblank hplain.2.2 hitems, List.nil_append,
        List.append_nil, List.nil_append, List.append_nil, Datum.compactEntries]

end

end Filter

variable {spelling : Spelling} {datum : Datum} {text : List Char}

/-- Without its blanks a text is the compact text. -/
theorem JsonText.filter_isInk (hspelling : spelling.Faithful) (hplain : datum.KeysPlain)
    (htext : JsonText spelling IsBlank datum text) :
    text.filter isInk = datum.compactText spelling :=
  filter_jsonText hspelling (fun _ hink => hink) filter_isInk_of_isBlank hplain htext

/-- Only one text has no blanks. -/
theorem JsonText.eq_compactText (hspelling : spelling.Faithful) (hplain : datum.KeysPlain)
    (htext : JsonText spelling IsNothing datum text) : text = datum.compactText spelling := by
  have hnone {blank : List Char} (hblank : IsNothing blank) :
      blank.filter (fun _ => true) = [] := by
    rw [hblank]
    rfl
  have hfilter := filter_jsonText hspelling (fun _ _ => rfl) hnone hplain htext
  rwa [List.filter_true] at hfilter

/-! ## Standard texts -/

theorem isNothing_nil : IsNothing [] :=
  rfl

theorem isBlank_nil : IsBlank [] :=
  List.forall_mem_nil _

namespace Datum

mutual

theorem jsonText_compactText (spelling : Spelling) :
    (datum : Datum) → JsonText spelling IsNothing datum (datum.compactText spelling)
  | .integer number => .integer number
  | .float number => .float number
  | .list data => by
      have htext := JsonText.list (jsonItems_compactItems spelling data) isNothing_nil
      rwa [List.append_nil] at htext
  | .map entries => by
      have htext := JsonText.map (jsonEntries_compactEntries spelling entries) isNothing_nil
      rwa [List.append_nil] at htext

theorem jsonItems_compactItems (spelling : Spelling) :
    (data : List Datum) → JsonItems spelling IsNothing data (compactItems spelling data)
  | [] => .nil
  | datum :: data => by
      have hitems := JsonItems.cons isNothing_nil (datum.jsonText_compactText spelling)
        isNothing_nil (jsonItems_compactItems spelling data)
      rwa [List.append_nil] at hitems

theorem jsonEntries_compactEntries (spelling : Spelling) :
    (entries : List (String × Datum)) →
      JsonEntries spelling IsNothing entries (compactEntries spelling entries)
  | [] => .nil
  | (key, datum) :: entries => by
      have hitems := JsonEntries.cons key isNothing_nil isNothing_nil isNothing_nil
        (datum.jsonText_compactText spelling) isNothing_nil
        (jsonEntries_compactEntries spelling entries)
      rwa [List.append_nil, List.append_nil] at hitems

end

theorem isBlank_lineBreak (level : Nat) : IsBlank (lineBreak level) := by
  intro c hmem
  rcases List.mem_cons.mp hmem with rfl | hmem
  · decide
  · rw [List.eq_of_mem_replicate hmem]
    decide

/-- There is a line break before the closing bracket only if there are items. -/
theorem exists_enclosed (opening closing : Char) (level : Nat) (items : List (List Char)) :
    ∃ blank, IsBlank blank ∧ enclosed opening closing level items =
      opening :: ([','].intercalate items ++ blank ++ [closing]) := by
  unfold enclosed
  split
  · rename_i hempty
    rw [List.isEmpty_iff.mp hempty]
    exact ⟨[], isBlank_nil, rfl⟩
  · exact ⟨lineBreak level, isBlank_lineBreak level, rfl⟩

mutual

theorem jsonText_indentedText (spelling : Spelling) (level : Nat) :
    (datum : Datum) → JsonText spelling IsBlank datum (datum.indentedText spelling level)
  | .integer number => .integer number
  | .float number => .float number
  | .list data => by
      obtain ⟨blank, hblank, htext⟩ :=
        exists_enclosed '[' ']' level (indentedItems spelling (level + 1) data)
      rw [indentedText, htext]
      exact .list (jsonItems_indentedItems spelling (level + 1) data) hblank
  | .map entries => by
      obtain ⟨blank, hblank, htext⟩ :=
        exists_enclosed '\x7b' '\x7d' level (indentedEntries spelling (level + 1) entries)
      rw [indentedText, htext]
      exact .map (jsonEntries_indentedEntries spelling (level + 1) entries) hblank

theorem jsonItems_indentedItems (spelling : Spelling) (level : Nat) :
    (data : List Datum) → JsonItems spelling IsBlank data (indentedItems spelling level data)
  | [] => .nil
  | datum :: data => by
      have hitems := JsonItems.cons (isBlank_lineBreak level)
        (datum.jsonText_indentedText spelling level) isBlank_nil
        (jsonItems_indentedItems spelling level data)
      rwa [List.append_nil] at hitems

theorem jsonEntries_indentedEntries (spelling : Spelling) (level : Nat) :
    (entries : List (String × Datum)) →
      JsonEntries spelling IsBlank entries (indentedEntries spelling level entries)
  | [] => .nil
  | (key, datum) :: entries => by
      have hspace : IsBlank [' '] := by
        intro c hmem
        rw [List.mem_singleton.mp hmem]
        decide
      have hitems := JsonEntries.cons key (isBlank_lineBreak level) isBlank_nil hspace
        (datum.jsonText_indentedText spelling level) isBlank_nil
        (jsonEntries_indentedEntries spelling level entries)
      rwa [List.append_nil, List.append_nil] at hitems

end

end Datum

theorem Spelling.faithful_standard : standard.Faithful where
  key_eq _ := rfl
  isNumber := by
    intro number hfinite c hmem
    match number with
    | .finite negative magnitude =>
        obtain ⟨_, htext, -⟩ :=
          Binary64.exists_shortestText Value.isNumeral_jsonStyle negative magnitude
        exact htext.inNumber c hmem
  mark_mem := by
    intro number hfinite
    match number with
    | .finite negative magnitude =>
        exact Binary64.mark_mem_shortestText Value.jsonStyle negative magnitude
  injective := by
    intro left right hleft hright htext
    have hvalue : (Value.float left).IsFinite ∧ (Value.float right).IsFinite := ⟨hleft, hright⟩
    exact Value.float.inj
      (Value.styled_injective Value.isNumeral_jsonStyle hvalue.1 hvalue.2 htext)

theorem Serializer.writes_standard : standard.Writes .standard where
  compact datum := ⟨_, rfl, by
    rw [String.toList_ofList]
    exact datum.jsonText_compactText .standard⟩
  indented datum := ⟨_, rfl, by
    rw [String.toList_ofList]
    exact datum.jsonText_indentedText .standard 0⟩

end LetterMachine
