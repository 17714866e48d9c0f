import LetterMachine.Bank.Json
import LetterMachine.Proofs.JsonTexts
import Mathlib.Data.List.Basic

/-!
# Registers read back from JSON

Every list ends with a bracket, so the compact text of a bank falls apart into its members at the
brackets that close, whatever stands in the lists.  The name of a member is between quotation marks
and its values are between commas, and as none of these characters is in the text of a value, what
is read is what was written.  If all values are finite, their texts determine them, and so the text
of a bank determines the bank: `Bank.encodedFaithfully`.
-/

namespace LetterMachine

/-- Lists with the same images are the same, if their elements are told apart by their images. -/
theorem eq_of_map_eq_map {α β : Type} {image : α → β} {left right : List α}
    (hinjective : ∀ first ∈ left, ∀ second ∈ right, image first = image second → first = second)
    (hmap : left.map image = right.map image) : left = right := by
  induction left generalizing right with
  | nil => exact (List.map_eq_nil_iff.mp hmap.symm).symm
  | cons first left ih =>
      obtain ⟨second, right, rfl, himage, hrest⟩ := List.map_eq_cons_iff.mp hmap.symm
      rw [hinjective first List.mem_cons_self second List.mem_cons_self himage.symm]
      congr 1
      apply ih _ hrest.symm
      intro first hfirst second hsecond
      exact hinjective first (List.mem_cons_of_mem _ hfirst) second
        (List.mem_cons_of_mem _ hsecond)

/-! ## Letters and values -/

theorem Letter.pairwise_all : all.Pairwise fun left right => left.index < right.index := by
  rw [all, List.pairwise_map]
  exact List.pairwise_lt_finRange 26

theorem Letter.lower_injective {left right : Letter} (hlower : left.lower = right.lower) :
    left = right := by
  have hletter := ofLower?_lower left
  rw [hlower, ofLower?_lower] at hletter
  exact (Option.some.inj hletter).symm

/-- What separates the parts of the text of a bank, and what indents it. -/
def Bank.isLayout (c : Char) : Bool :=
  c == ',' || c == ']' || c == '[' || c == '"' || c.isWhitespace

namespace Bank

theorem not_isLayout_lower (letter : Letter) : isLayout letter.lower = false := by
  rcases letter with ⟨index⟩
  revert index
  decide

theorem lower_ne_of_isLayout {c : Char} (hlayout : isLayout c = true) (letter : Letter) :
    c ≠ letter.lower := by
  rintro rfl
  rw [not_isLayout_lower] at hlayout
  cases hlayout

theorem inNumeral_of_isLayout {c : Char} (hlayout : isLayout c = true) :
    Decimal.inNumeral c = false := by
  simp only [isLayout, Char.isWhitespace, Bool.or_eq_true, beq_iff_eq, decide_eq_true_eq]
    at hlayout
  rcases hlayout with (((rfl | rfl) | rfl) | rfl) | ((rfl | rfl) | rfl) | rfl
  all_goals decide

end Bank

namespace Spelling

/-- How a value is written. -/
def value (spelling : Spelling) (value : Value) : List Char :=
  value.datum.compactText spelling

theorem value_integer (spelling : Spelling) (number : Int64) :
    spelling.value (.integer number) = Decimal.integer number.toInt :=
  rfl

theorem value_float {spelling : Spelling} {number : Binary64} (hfinite : number.IsFinite) :
    spelling.value (.float number) = spelling.float number := by
  cases number with
  | finite => rfl
  | nan | infinite => cases hfinite

namespace Faithful

variable {spelling : Spelling} (hspelling : spelling.Faithful)

include hspelling

theorem not_isLayout_value (value : Value) :
    ∀ c ∈ spelling.value value, Bank.isLayout c = false := by
  intro c hmem
  have hnumeral : Decimal.inNumeral c = true := by
    cases value with
    | integer number =>
        rw [value_integer] at hmem
        exact Decimal.inNumeral_of_inNumber
          ((Decimal.integerText_integer number.toInt).inNumber c hmem)
    | float number =>
        exact hspelling.inNumeral_double number c hmem
  by_contra hlayout
  rw [Bank.inNumeral_of_isLayout (Bool.not_eq_false _ ▸ hlayout)] at hnumeral
  cases hnumeral

/-- There is a mark in the texts of doubles that is not in those of integers. -/
theorem integer_ne_float (number : Int64) {double : Binary64} (hfinite : double.IsFinite) :
    spelling.value (.integer number) ≠ spelling.float double := by
  intro heq
  have hinteger := Decimal.integerText_integer number.toInt
  rw [← value_integer spelling, heq] at hinteger
  exact (hspelling.mark_mem hfinite).elim hinteger.point_not_mem hinteger.mark_not_mem

/-- Values that are finite are told apart by their texts. -/
theorem value_injective {left right : Value} (hleft : left.IsFinite) (hright : right.IsFinite)
    (htext : spelling.value left = spelling.value right) : left = right := by
  cases left with
  | integer number =>
      cases right with
      | integer number' =>
          have hinteger := Decimal.integerText_integer number.toInt
          rw [← value_integer spelling, htext, value_integer] at hinteger
          rw [Int64.toInt_inj.mp (Decimal.finds_readInteger?.rightUnique hinteger
            (Decimal.integerText_integer number'.toInt))]
      | float double =>
          rw [value_float hright] at htext
          exact absurd htext (hspelling.integer_ne_float number hright)
  | float double =>
      rw [value_float hleft] at htext
      cases right with
      | integer number => exact absurd htext.symm (hspelling.integer_ne_float number hleft)
      | float double' =>
          rw [value_float hright] at htext
          rw [hspelling.injective hleft hright htext]

end Faithful

end Spelling

namespace Bank

/-! ## The reader -/

/-- The name and the values of a member, without the bracket at its end. -/
def readMember (member : List Char) : List Char × List (List Char) :=
  ((member.splitOn '"').getD 1 [], ((member.splitOn '[').getD 1 []).splitOn ',')

/-- The names and the values of all members. -/
def readMembers (text : List Char) : List (List Char × List (List Char)) :=
  (text.splitOn ']').dropLast.map readMember

theorem readMembers_append {front : List Char} (hfront : ']' ∉ front) (rest : List Char) :
    readMembers (front ++ ']' :: rest) = readMember front :: readMembers rest := by
  rw [readMembers, List.splitOn_append_cons_self_of_not_mem hfront,
    List.dropLast_cons_of_ne_nil (List.splitOn_ne_nil _ _), List.map_cons, readMembers]

theorem readMembers_of_not_mem {text : List Char} (htext : ']' ∉ text) : readMembers text = [] := by
  rw [readMembers, List.splitOn_eq_singleton htext]
  rfl

/-- What may stand before a member. -/
def opening : List Char :=
  ['\x7b', ',']

section Texts

variable {spelling : Spelling}

/-- The texts of values, with commas between them. -/
def listText (spelling : Spelling) (values : List Value) : List Char :=
  [','].intercalate (values.map spelling.value)

/-- A member without the bracket at its end. -/
def memberText (spelling : Spelling) (letter : Letter) (values : List Value) : List Char :=
  '"' :: letter.lower :: '"' :: ':' :: '[' :: listText spelling values

/-- What is read of a member. -/
def memberRead (spelling : Spelling) (member : Letter × List Value) :
    List Char × List (List Char) :=
  ([member.1.lower], member.2.map spelling.value)

/-- Members with commas between them, and the end of the text. -/
def membersText (spelling : Spelling) (members : List (Letter × List Value)) : List Char :=
  [','].intercalate (members.map fun member => memberText spelling member.1 member.2 ++ [']']) ++
    ['\x7d']

theorem membersText_cons (member : Letter × List Value) (members : List (Letter × List Value)) :
    membersText spelling (member :: members) = memberText spelling member.1 member.2 ++ ']' ::
      ((if members = [] then [] else [',']) ++ membersText spelling members) := by
  split
  · rename_i hlast
    simp [membersText, hlast]
  · rename_i hlast
    have hlast' :
        members.map (fun member => memberText spelling member.1 member.2 ++ [']']) ≠ [] := by
      simpa using hlast
    simp [membersText, List.intercalate_cons_of_ne_nil hlast']

variable (hspelling : spelling.Faithful)

include hspelling

theorem not_mem_listText {c : Char} (hlayout : isLayout c = true) (hcomma : c ≠ ',')
    (values : List Value) : c ∉ listText spelling values := by
  induction values with
  | nil => exact List.not_mem_nil
  | cons value values ih =>
      have hvalue : c ∉ spelling.value value := by
        intro hmem
        rw [hspelling.not_isLayout_value value c hmem] at hlayout
        cases hlayout
      by_cases hlast : values = []
      · simpa [listText, hlast] using hvalue
      · have hlast' : values.map spelling.value ≠ [] := by simpa using hlast
        rw [listText, List.map_cons, List.intercalate_cons_of_ne_nil hlast']
        simp only [List.mem_append, List.mem_singleton, not_or]
        exact ⟨⟨hvalue, hcomma⟩, ih⟩

theorem splitOn_listText {values : List Value} (hvalues : values ≠ []) :
    (listText spelling values).splitOn ',' = values.map spelling.value := by
  apply List.splitOn_intercalate
  · intro text htext
    obtain ⟨value, -, rfl⟩ := List.mem_map.mp htext
    intro hmem
    cases hspelling.not_isLayout_value value ',' hmem
  · simpa using hvalues

theorem not_mem_memberText {c : Char} (hlayout : isLayout c = true)
    (hseparator : c ∉ [',', '"', ':', '[']) (letter : Letter) (values : List Value) :
    c ∉ memberText spelling letter values := by
  simp only [List.mem_cons, List.not_mem_nil, or_false, not_or] at hseparator
  obtain ⟨hcomma, hquote, hcolon, hbracket⟩ := hseparator
  have hletter := lower_ne_of_isLayout hlayout letter
  have hlist := not_mem_listText hspelling hlayout hcomma values
  simp [memberText, hletter, hquote, hcolon, hbracket, hlist]

theorem readMember_memberText {front : List Char} (hfront : front ⊆ opening) (letter : Letter)
    {values : List Value} (hvalues : values ≠ []) :
    readMember (front ++ memberText spelling letter values) =
      ([letter.lower], values.map spelling.value) := by
  have hquote : '"' ∉ front := fun hmem => absurd (hfront hmem) (by decide)
  have hbracket : '[' ∉ front := fun hmem => absurd (hfront hmem) (by decide)
  have hname : (front ++ memberText spelling letter values).splitOn '"' =
      front :: [letter.lower] :: (':' :: '[' :: listText spelling values).splitOn '"' := by
    have hletter : '"' ∉ [letter.lower] := by
      simpa using lower_ne_of_isLayout (by decide) letter
    rw [memberText, List.splitOn_append_cons_self_of_not_mem hquote]
    congr 1
    exact List.splitOn_append_cons_self_of_not_mem hletter _
  have hlist : (front ++ memberText spelling letter values).splitOn '[' =
      [front ++ ['"', letter.lower, '"', ':'], listText spelling values] := by
    have hbefore : '[' ∉ front ++ ['"', letter.lower, '"', ':'] := by
      simpa [hbracket] using lower_ne_of_isLayout (by decide) letter
    have hsplit : front ++ memberText spelling letter values =
        (front ++ ['"', letter.lower, '"', ':']) ++ '[' :: listText spelling values := by
      simp [memberText]
    rw [hsplit, List.splitOn_append_cons_self_of_not_mem hbefore,
      List.splitOn_eq_singleton (not_mem_listText hspelling (by decide) (by decide) values)]
  rw [readMember, hname, hlist]
  simp only [List.getD_cons_succ, List.getD_cons_zero, splitOn_listText hspelling hvalues]

/-- Every member is read, whatever there is before the first of them. -/
theorem readMembers_membersText {front : List Char} (hfront : front ⊆ opening)
    {members : List (Letter × List Value)} (hmembers : ∀ member ∈ members, member.2 ≠ []) :
    readMembers (front ++ membersText spelling members) = members.map (memberRead spelling) := by
  have hclose {front : List Char} (hfront : front ⊆ opening) : ']' ∉ front :=
    fun hmem => absurd (hfront hmem) (by decide)
  induction members generalizing front with
  | nil => exact readMembers_of_not_mem (by simp [membersText, hclose hfront])
  | cons member members ih =>
      obtain ⟨hvalues, hothers⟩ := List.forall_mem_cons.mp hmembers
      have hcomma : (if members = [] then [] else [',']) ⊆ opening := by
        split <;> decide
      have hfirst : ']' ∉ front ++ memberText spelling member.1 member.2 := by
        rw [List.mem_append, not_or]
        exact ⟨hclose hfront, not_mem_memberText hspelling (by decide) (by decide) _ _⟩
      rw [membersText_cons, ← List.append_assoc, readMembers_append hfirst,
        readMember_memberText hspelling hfront member.1 hvalues, ih hcomma hothers]
      rfl

end Texts

/-! ## Banks -/

/-- The registers that hold a value, in alphabetical order, with their values from the front. -/
def members (bank : Bank) : List (Letter × List Value) :=
  bank.occupied.map fun (letter, register) => (letter, register.toList)

variable {bank : Bank} {letter : Letter} {values : List Value}

theorem mem_members_iff : (letter, values) ∈ bank.members ↔
    (bank.get letter).toList = values ∧ values ≠ [] := by
  have hempty : (bank.get letter).isEmpty = (bank.get letter).toList.isEmpty := by
    obtain ⟨values, hvalues⟩ := (bank.get letter).exists_eq_ofList
    rw [hvalues, Deque.isEmpty_ofList, Deque.toList_ofList]
  simp only [members, occupied, List.mem_map, List.mem_filter, Bool.not_eq_true', Prod.mk.injEq]
  constructor
  · rintro ⟨_, ⟨⟨other, -, rfl⟩, hoccupied⟩, rfl, rfl⟩
    exact ⟨rfl, List.isEmpty_eq_false_iff.mp (hempty ▸ hoccupied)⟩
  · rintro ⟨rfl, hvalues⟩
    exact ⟨_, ⟨⟨letter, letter.mem_all, rfl⟩, hempty.trans (List.isEmpty_eq_false_iff.mpr hvalues)⟩,
      rfl, rfl⟩

theorem pairwise_members (bank : Bank) :
    (bank.members.map Prod.fst).Pairwise fun left right => left.index < right.index := by
  have hletters : bank.members.map Prod.fst =
      Letter.all.filter fun letter => !(bank.get letter).isEmpty := by
    simp [members, occupied, List.filter_map, Function.comp_def]
  rw [hletters]
  exact Letter.pairwise_all.filter _

theorem eq_of_members_eq {other : Bank} (hmembers : bank.members = other.members) :
    bank = other := by
  apply ext
  intro letter
  apply Deque.ext
  by_cases hempty : (bank.get letter).toList = []
  · rw [hempty]
    by_contra hother
    have hmem := mem_members_iff.mpr ⟨rfl, Ne.symm hother⟩
    rw [← hmembers, mem_members_iff, hempty] at hmem
    exact hother hmem.1
  · have hmem := mem_members_iff.mpr ⟨rfl, hempty⟩
    rw [hmembers, mem_members_iff] at hmem
    exact hmem.1.symm

/-! ## Banks as data -/

theorem isAlphanum_of_mem_text (letter : Letter) :
    ∀ c ∈ letter.text.toList, c.isAlphanum = true := by
  have hall : ∀ index, (Letter.text ⟨index⟩).toList.all Char.isAlphanum = true := by decide
  exact List.all_eq_true.mp (hall letter.index)

theorem itemsPlain_values (values : List Value) : Datum.ItemsPlain (values.map Value.datum) := by
  induction values with
  | nil => trivial
  | cons value values ih =>
      cases value with
      | integer | float => exact ⟨trivial, ih⟩

theorem keysPlain_datum (bank : Bank) : bank.datum.KeysPlain := by
  have hentries (registers : List (Letter × Register)) :
      Datum.EntriesPlain (registers.map fun (letter, register) =>
        (letter.text, Register.datum register)) := by
    induction registers with
    | nil => trivial
    | cons member registers ih =>
        exact ⟨isAlphanum_of_mem_text member.1, itemsPlain_values member.2.toList, ih⟩
  exact hentries bank.occupied

section Data

variable {spelling : Spelling}

theorem compactItems_values (values : List Value) :
    Datum.compactItems spelling (values.map Value.datum) = values.map spelling.value := by
  induction values with
  | nil => rfl
  | cons value values ih =>
      rw [List.map_cons, Datum.compactItems, ih, List.map_cons, Spelling.value]

theorem compactText_datum (hspelling : spelling.Faithful) (bank : Bank) :
    bank.datum.compactText spelling = '\x7b' :: membersText spelling bank.members := by
  have hentry (member : Letter × Register) :
      spelling.key member.1.text ++ ':' :: (Register.datum member.2).compactText spelling =
        memberText spelling member.1 member.2.toList ++ [']'] := by
    have hletter : member.1.text.toList = [member.1.lower] := by simp [Letter.text]
    rw [hspelling.key_eq (isAlphanum_of_mem_text member.1), hletter, Register.datum,
      Datum.compactText, compactItems_values]
    rfl
  have hentries (registers : List (Letter × Register)) :
      Datum.compactEntries spelling (registers.map fun (letter, register) =>
          (letter.text, Register.datum register)) =
        registers.map fun member => memberText spelling member.1 member.2.toList ++ [']'] := by
    induction registers with
    | nil => rfl
    | cons member registers ih =>
        rw [List.map_cons, Datum.compactEntries, ih, hentry, List.map_cons]
  rw [datum, Datum.compactText, hentries, membersText, members, List.map_map]
  rfl

end Data

/-- All values are integers or finite doubles. -/
def IsFinite (bank : Bank) : Prop :=
  ∀ letter, ∀ value ∈ (bank.get letter).toList, value.IsFinite

theorem isFinite_push_empty {letter : Letter} {value : Value} (hvalue : value.IsFinite) :
    (empty.push letter value).IsFinite := by
  intro other found hmem
  by_cases hother : letter = other
  · subst hother
    have hlist : ((empty.push letter value).get letter).toList = [value] := by
      rw [push, get_set_self, get_empty]
      rfl
    rw [hlist, List.mem_singleton] at hmem
    rwa [hmem]
  · have hempty : ((empty.push letter value).get other).toList = [] := by
      rw [push, get_set_of_ne _ hother, get_empty]
      rfl
    rw [hempty] at hmem
    cases hmem

section Texts

variable {spelling : Spelling} {serializer : Serializer}

/-- What is read of a compact text is what the registers hold. -/
theorem readMembers_compactText (hspelling : spelling.Faithful) (bank : Bank) :
    readMembers (bank.datum.compactText spelling) = bank.members.map (memberRead spelling) := by
  rw [compactText_datum hspelling]
  apply readMembers_membersText hspelling (by decide : ['\x7b'] ⊆ opening)
  rintro ⟨letter, values⟩ hmember
  exact (mem_members_iff.mp hmember).2

/-- **Banks of finite values are told apart by their texts.** -/
theorem eq_of_compactText_eq (hspelling : spelling.Faithful) {other : Bank}
    (hfinite : bank.IsFinite) (hfinite' : other.IsFinite)
    (htext : bank.datum.compactText spelling = other.datum.compactText spelling) :
    bank = other := by
  have hread : bank.members.map (memberRead spelling) =
      other.members.map (memberRead spelling) := by
    rw [← readMembers_compactText hspelling, ← readMembers_compactText hspelling, htext]
  apply eq_of_members_eq
  refine eq_of_map_eq_map ?_ hread
  rintro ⟨letter, values⟩ hmember ⟨letter', values'⟩ hmember' hsame
  obtain ⟨hletter, hvalues⟩ := Prod.mk.inj hsame
  obtain ⟨rfl, -⟩ := mem_members_iff.mp hmember
  obtain ⟨rfl, -⟩ := mem_members_iff.mp hmember'
  have hletter' : letter = letter' := Letter.lower_injective (List.cons.inj hletter).1
  subst hletter'
  congr 1
  refine eq_of_map_eq_map ?_ hvalues
  intro value hvalue value' hvalue' htext
  exact hspelling.value_injective (hfinite letter value hvalue) (hfinite' letter value' hvalue')
    htext

/-- The compact text of a bank is written whatever the bank holds. -/
theorem compact_datum (hspelling : spelling.Faithful) (hwrites : serializer.Writes spelling)
    (bank : Bank) : ∃ text, serializer.compact bank.datum = .ok text ∧
      text.toList = bank.datum.compactText spelling := by
  obtain ⟨text, hcompact, htext⟩ := hwrites.compact bank.datum
  exact ⟨text, hcompact, htext.eq_compactText hspelling bank.keysPlain_datum⟩

theorem indented_datum (hspelling : spelling.Faithful) (hwrites : serializer.Writes spelling)
    (bank : Bank) : ∃ text, serializer.indented bank.datum = .ok text ∧
      text.toList.filter isInk = bank.datum.compactText spelling := by
  obtain ⟨text, hindented, htext⟩ := hwrites.indented bank.datum
  exact ⟨text, hindented, htext.filter_isInk hspelling bank.keysPlain_datum⟩

/-! ## What the text of a bank says -/

/-- The text of a bank in JSON says all that there is to say about the bank. -/
structure EncodedFaithfully (serializer : Serializer) (spelling : Spelling) (bank : Bank) :
    Prop where
  /-- Banks of integers and finite doubles are the same if their texts are, to the sign of zero. -/
  eq_of_compact : bank.IsFinite → ∀ other : Bank, other.IsFinite →
    serializer.compact other.datum = serializer.compact bank.datum → other = bank
  /-- There is one member for each register that is not empty, in alphabetical order, and its list
  has the values from the front. -/
  members : ∃ members : List (Letter × List Value),
    (members.map Prod.fst).Pairwise (fun left right => left.index < right.index) ∧
    (∀ letter values, (letter, values) ∈ members ↔
      (bank.get letter).toList = values ∧ values ≠ []) ∧
    ∃ text, serializer.compact bank.datum = .ok text ∧
      readMembers text.toList = members.map fun (letter, values) =>
        ([letter.lower], values.map spelling.value)
  /-- White space is all that is added for the eye. -/
  indented : ∃ compact indented, serializer.compact bank.datum = .ok compact ∧
    serializer.indented bank.datum = .ok indented ∧
      indented.toList.filter isInk = compact.toList

/-- **Registers are encoded faithfully**, by any serialiser that writes what is handed to it. -/
theorem encodedFaithfully (hspelling : spelling.Faithful) (hwrites : serializer.Writes spelling)
    (bank : Bank) : bank.EncodedFaithfully serializer spelling where
  eq_of_compact hfinite other hother hcompact := by
    obtain ⟨text, hwritten, htext⟩ := compact_datum hspelling hwrites bank
    obtain ⟨text', hwritten', htext'⟩ := compact_datum hspelling hwrites other
    rw [hwritten, hwritten', Except.ok.injEq] at hcompact
    exact eq_of_compactText_eq hspelling hother hfinite (by rw [← htext, ← htext', hcompact])
  members := by
    obtain ⟨text, hwritten, htext⟩ := compact_datum hspelling hwrites bank
    refine ⟨bank.members, bank.pairwise_members, fun _ _ => mem_members_iff, text, hwritten, ?_⟩
    rw [htext, readMembers_compactText hspelling]
    rfl
  indented := by
    obtain ⟨compact, hcompact, htext⟩ := compact_datum hspelling hwrites bank
    obtain ⟨indented, hindented, hink⟩ := indented_datum hspelling hwrites bank
    exact ⟨compact, indented, hcompact, hindented, hink.trans htext.symm⟩

end Texts

/-- The three zeros are written in different ways. -/
theorem encodedFaithfully_of_zeros :
    Serializer.standard.compact (empty.push default (.float (.zero true))).datum =
        .ok "\x7b\"a\":[-0.0]\x7d" ∧
      ∀ other ∈ [Value.float (.zero false), .integer 0],
        Serializer.standard.compact (empty.push default other).datum ≠
          Serializer.standard.compact (empty.push default (.float (.zero true))).datum := by
  have hfaithful := encodedFaithfully Spelling.faithful_standard Serializer.writes_standard
    (empty.push default (.float (.zero true)))
  have hothers : ∀ other ∈ [Value.float (.zero false), .integer 0],
      other.IsFinite ∧ empty.push default other ≠ empty.push default (.float (.zero true)) := by
    decide +kernel
  refine ⟨by decide +kernel, ?_⟩
  intro other hother heq
  obtain ⟨hfinite, hne⟩ := hothers other hother
  apply hne
  exact hfaithful.eq_of_compact (isFinite_push_empty (by decide +kernel)) _
    (isFinite_push_empty hfinite) heq

end Bank

end LetterMachine
