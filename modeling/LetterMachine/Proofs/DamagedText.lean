import LetterMachine.Proofs.AsciiText
import Mathlib.Data.List.Basic
import Mathlib.Data.List.Induction
import Mathlib.Data.Nat.Find

/-!
# Text from damaged bytes

`decode` gives a text for bytes of every kind.  Which one that is can be said without a decoder.
Where no character stands, the longest part that the bytes of some character begin with is damaged,
or a single byte if no character begins so, and each damaged part is replaced as a whole by one
replacement character.  `Denotes` is this rule, and it gives every sequence of bytes the text that
`decode` gives it.
-/

namespace LetterMachine.Utf8

/-- The bytes of some character begin with these. -/
def Begins (part : List UInt8) : Prop :=
  ∃ c, part <+: String.utf8EncodeChar c

/-- No character stands in front of `part ++ rest`, and `part` is what is replaced there. -/
structure Damaged (part rest : List UInt8) : Prop where
  no_character : ∀ c, ¬String.utf8EncodeChar c <+: part ++ rest
  ne_nil : part ≠ []
  begins_or_single : Begins part ∨ part.length = 1
  maximal : ∀ longer, longer <+: part ++ rest → Begins longer → longer.length ≤ part.length

/-- The text that bytes denote, character by character and one replacement for each damaged part. -/
inductive Denotes : List UInt8 → List Char → Prop where
  | nil : Denotes [] []
  | character (c : Char) {rest : List UInt8} {text : List Char} (hrest : Denotes rest text) :
      Denotes (String.utf8EncodeChar c ++ rest) (c :: text)
  | damaged {part rest : List UInt8} {text : List Char} (hdamaged : Damaged part rest)
      (hrest : Denotes rest text) : Denotes (part ++ rest) (replacement :: text)

/-- A damaged part can be found wherever no character stands. -/
theorem exists_damaged {bytes : List UInt8} (hne : bytes ≠ [])
    (hnone : ∀ c, ¬String.utf8EncodeChar c <+: bytes) :
    ∃ part rest, bytes = part ++ rest ∧ Damaged part rest := by
  classical
  let longest := Nat.findGreatest (fun count => Begins (bytes.take count)) bytes.length
  have hlongest : longest ≤ bytes.length := Nat.findGreatest_le _
  have hbegins : Begins (bytes.take longest) := by
    have hzero : Begins (bytes.take 0) := ⟨'0', List.nil_prefix⟩
    exact Nat.findGreatest_spec (P := fun count => Begins (bytes.take count)) (Nat.zero_le _) hzero
  have hpos : 0 < bytes.length := List.length_pos_iff.mpr hne
  have hlength : (bytes.take (max 1 longest)).length = max 1 longest :=
    List.length_take_of_le (max_le hpos hlongest)
  have hwhole : bytes.take (max 1 longest) ++ bytes.drop (max 1 longest) = bytes :=
    List.take_append_drop _ _
  refine ⟨_, _, hwhole.symm, ?_, ?_, ?_, ?_⟩
  · rwa [hwhole]
  · exact List.ne_nil_of_length_pos (by omega)
  · rcases Nat.eq_zero_or_pos longest with hzero | hsome
    · exact .inr (by omega)
    · rw [max_eq_right hsome]
      exact .inl hbegins
  · intro longer hprefix hlonger
    rw [hwhole] at hprefix
    rw [List.prefix_iff_eq_take.mp hprefix] at hlonger
    have hle : longer.length ≤ longest := Nat.le_findGreatest hprefix.length_le hlonger
    omega

theorem exists_denotes (bytes : List UInt8) : ∃ text, Denotes bytes text := by
  induction hlength : bytes.length using Nat.strong_induction_on generalizing bytes with
  | h length ih =>
      by_cases hne : bytes = []
      · exact ⟨[], hne ▸ .nil⟩
      have hshorter : ∀ {front rest : List UInt8}, bytes = front ++ rest → front ≠ [] →
          ∃ text, Denotes rest text := by
        rintro front rest rfl hfront
        have hpos := List.length_pos_iff.mpr hfront
        rw [List.length_append] at hlength
        exact ih rest.length (by omega) rest rfl
      by_cases hcharacter : ∃ c, String.utf8EncodeChar c <+: bytes
      · obtain ⟨c, rest, hbytes⟩ := hcharacter
        obtain ⟨text, htext⟩ := hshorter hbytes.symm String.utf8EncodeChar_ne_nil
        exact ⟨c :: text, hbytes ▸ .character c htext⟩
      · push Not at hcharacter
        obtain ⟨part, rest, hbytes, hdamaged⟩ := exists_damaged hne hcharacter
        obtain ⟨text, htext⟩ := hshorter hbytes hdamaged.ne_nil
        exact ⟨replacement :: text, hbytes ▸ .damaged hdamaged htext⟩

/-! ## No byte is lost -/

/-- A byte that finishes no character leaves one unfinished. -/
theorem exists_of_step_eq {pending? : Option Pending} {byte : UInt8}
    (hnone : (step pending? byte).1 = []) : ∃ pending, step pending? byte = ([], some pending) := by
  cases pending? with
  | none =>
      simp only [step, begin] at hnone ⊢
      split_ifs at hnone ⊢ <;> exact ⟨_, rfl⟩
  | some pending =>
      simp only [step, Pending.extend] at hnone ⊢
      split_ifs at hnone ⊢
      exact ⟨_, rfl⟩

theorem decodeFrom_ne_nil {pending? : Option Pending} {bytes : List UInt8}
    (hsome : pending? ≠ none ∨ bytes ≠ []) : decodeFrom pending? bytes ≠ [] := by
  induction bytes generalizing pending? with
  | nil =>
      obtain ⟨pending, rfl⟩ := Option.ne_none_iff_exists'.mp (hsome.resolve_right (· rfl))
      exact List.cons_ne_nil _ _
  | cons byte rest ih =>
      intro hnil
      rw [decodeFrom_cons, List.append_eq_nil_iff] at hnil
      obtain ⟨hnone, hrest⟩ := hnil
      obtain ⟨pending, hstep⟩ := exists_of_step_eq hnone
      rw [hstep] at hrest
      exact ih (.inl (Option.some_ne_none pending)) hrest

theorem decodeFrom_utf8EncodeChar (c : Char) : decodeFrom none (String.utf8EncodeChar c) = [c] := by
  rw [← List.append_nil (String.utf8EncodeChar c), decodeFrom_character]
  rfl

/-- Before the last byte of a character the decoder has given nothing. -/
theorem exists_step_of_decodeFrom_eq {pending? : Option Pending} {byte : UInt8} {more : List UInt8}
    {c : Char} (hmore : more ≠ []) (hdecode : decodeFrom pending? (byte :: more) = [c]) :
    ∃ pending, step pending? byte = ([], some pending) := by
  apply exists_of_step_eq
  have hrest : decodeFrom (step pending? byte).2 more ≠ [] := decodeFrom_ne_nil (.inr hmore)
  rw [decodeFrom_cons, List.append_eq_singleton_iff] at hdecode
  rcases hdecode with ⟨hnone, -⟩ | ⟨-, hnil⟩
  · exact hnone
  · exact absurd hnil hrest

/-! ## What an unfinished character can become -/

/-- A byte of the form that all bytes of a character but the first one have. -/
def IsFurther (byte : UInt8) : Prop :=
  0x80 ≤ byte ∧ byte ≤ 0xBF

def Pending.Admits (pending : Pending) (byte : UInt8) : Prop :=
  pending.lowest ≤ byte ∧ byte ≤ pending.highest

/-- Some character begins with the bytes so far, whichever of the bytes that may come next follows,
and however it goes on. -/
structure Pending.Continues (pending : Pending) (part : List UInt8) : Prop where
  missing_pos : 0 < pending.missing
  lowest_le : pending.lowest ≤ pending.highest
  completes : ∀ byte more, pending.Admits byte → (∀ further ∈ more, IsFurther further) →
    more.length + 1 = pending.missing → ∃ c, String.utf8EncodeChar c = part ++ byte :: more

section Continues

variable {pending : Pending} {part : List UInt8} {byte : UInt8}

theorem Pending.Continues.begins_append (hcontinues : pending.Continues part)
    (hadmits : pending.Admits byte) : Begins (part ++ [byte]) := by
  let more := List.replicate (pending.missing - 1) (0x80 : UInt8)
  have hfurther : ∀ further ∈ more, IsFurther further := by
    intro further hmem
    rw [List.eq_of_mem_replicate hmem]
    exact ⟨by decide, by decide⟩
  have hlength : more.length + 1 = pending.missing := by
    have hpos := hcontinues.missing_pos
    rw [List.length_replicate]
    omega
  obtain ⟨c, hc⟩ := hcontinues.completes byte more hadmits hfurther hlength
  exact ⟨c, more, by rw [hc, List.append_assoc, List.singleton_append]⟩

theorem Pending.Continues.begins (hcontinues : pending.Continues part) : Begins part := by
  obtain ⟨c, hprefix⟩ := hcontinues.begins_append ⟨UInt8.le_refl _, hcontinues.lowest_le⟩
  exact ⟨c, (List.prefix_append _ _).trans hprefix⟩

end Continues

theorem utf8EncodeChar_charOf {byte : UInt8} (hbyte : byte.toNat < 0x80) :
    String.utf8EncodeChar (charOf byte) = [byte] := by
  have hnumber : (charOf byte).val.toNat = byte.toNat := toNat_charOf hbyte
  simp only [String.utf8EncodeChar, hnumber]
  rw [if_pos (Nat.le_of_lt_succ hbyte), UInt8.ofNat_toNat]

theorem ofNat_eq_of_toNat_eq {number : Nat} (byte : UInt8) (hnumber : number = byte.toNat) :
    UInt8.ofNat number = byte := by
  rw [hnumber, UInt8.ofNat_toNat]

section First

variable {byte : UInt8}

theorem continues_two (hlow : 0xC2 ≤ byte.toNat) (hhigh : byte.toNat < 0xE0) :
    Pending.Continues ⟨byte.toNat - 0xC0, 1, 0x80, 0xBF⟩ [byte] := by
  refine ⟨by simp, by simp, ?_⟩
  intro second more hsecond _ hlength
  obtain rfl := List.eq_nil_of_length_eq_zero (Nat.succ_injective hlength)
  simp only [Pending.Admits, UInt8.le_iff_toNat_le, UInt8.reduceToNat] at hsecond
  let number := (byte.toNat - 0xC0) * 64 + (second.toNat - 0x80)
  have hnumber : (Char.ofNat number).val.toNat = number :=
    toNat_ofNat_of_isValidChar (.inl (by omega))
  refine ⟨Char.ofNat number, ?_⟩
  simp only [String.utf8EncodeChar, hnumber]
  rw [if_neg (by omega), if_pos (by omega), ofNat_eq_of_toNat_eq byte (by omega),
    ofNat_eq_of_toNat_eq second (by omega)]
  rfl

/-- The least second byte keeps out the numbers that fit in two bytes, and the greatest one the
surrogates. -/
theorem continues_three (hlow : 0xE0 ≤ byte.toNat) (hhigh : byte.toNat < 0xF0) :
    Pending.Continues ⟨byte.toNat - 0xE0, 2, if byte = 0xE0 then 0xA0 else 0x80,
      if byte = 0xED then 0x9F else 0xBF⟩ [byte] := by
  refine ⟨by simp, ?_, ?_⟩
  · simp only [UInt8.le_iff_toNat_le, apply_ite UInt8.toNat, ← UInt8.toNat_inj, UInt8.reduceToNat]
    split_ifs <;> omega
  intro second more hsecond hmore hlength
  obtain ⟨third, rfl⟩ := List.length_eq_one_iff.mp (Nat.succ_injective hlength)
  simp only [Pending.Admits, UInt8.le_iff_toNat_le, apply_ite UInt8.toNat, ← UInt8.toNat_inj,
    UInt8.reduceToNat] at hsecond
  simp only [List.mem_singleton, forall_eq, IsFurther, UInt8.le_iff_toNat_le,
    UInt8.reduceToNat] at hmore
  let number := ((byte.toNat - 0xE0) * 64 + (second.toNat - 0x80)) * 64 + (third.toNat - 0x80)
  have hrange : 0x800 ≤ number ∧ (number < 0xD800 ∨ 0xDFFF < number) := by
    split_ifs at hsecond <;> omega
  have hsecond' : 0x80 ≤ second.toNat ∧ second.toNat ≤ 0xBF := by
    split_ifs at hsecond <;> omega
  have hnumber : (Char.ofNat number).val.toNat = number :=
    toNat_ofNat_of_isValidChar (hrange.2.imp_right fun hhigher => ⟨hhigher, by omega⟩)
  refine ⟨Char.ofNat number, ?_⟩
  simp only [String.utf8EncodeChar, hnumber]
  rw [if_neg (by omega), if_neg (by omega), if_pos (by omega),
    ofNat_eq_of_toNat_eq byte (by omega),
    ofNat_eq_of_toNat_eq second (by omega),
    ofNat_eq_of_toNat_eq third (by omega)]
  rfl

/-- The least second byte keeps out the numbers that fit in three bytes, and the greatest one those
behind the last character. -/
theorem continues_four (hlow : 0xF0 ≤ byte.toNat) (hhigh : byte.toNat < 0xF5) :
    Pending.Continues ⟨byte.toNat - 0xF0, 3, if byte = 0xF0 then 0x90 else 0x80,
      if byte = 0xF4 then 0x8F else 0xBF⟩ [byte] := by
  refine ⟨by simp, ?_, ?_⟩
  · simp only [UInt8.le_iff_toNat_le, apply_ite UInt8.toNat, ← UInt8.toNat_inj, UInt8.reduceToNat]
    split_ifs <;> omega
  intro second more hsecond hmore hlength
  obtain ⟨third, fourth, rfl⟩ := List.length_eq_two.mp (Nat.succ_injective hlength)
  simp only [Pending.Admits, UInt8.le_iff_toNat_le, apply_ite UInt8.toNat, ← UInt8.toNat_inj,
    UInt8.reduceToNat] at hsecond
  simp only [List.forall_mem_cons, List.not_mem_nil, false_implies, implies_true, and_true,
    IsFurther, UInt8.le_iff_toNat_le, UInt8.reduceToNat] at hmore
  let number := (((byte.toNat - 0xF0) * 64 + (second.toNat - 0x80)) * 64 +
    (third.toNat - 0x80)) * 64 + (fourth.toNat - 0x80)
  have hrange : 0x10000 ≤ number ∧ number < 0x110000 := by
    split_ifs at hsecond <;> omega
  have hsecond' : 0x80 ≤ second.toNat ∧ second.toNat ≤ 0xBF := by
    split_ifs at hsecond <;> omega
  have hnumber : (Char.ofNat number).val.toNat = number :=
    toNat_ofNat_of_isValidChar (.inr ⟨by omega, hrange.2⟩)
  refine ⟨Char.ofNat number, ?_⟩
  simp only [String.utf8EncodeChar, hnumber]
  rw [if_neg (by omega), if_neg (by omega), if_neg (by omega),
    ofNat_eq_of_toNat_eq byte (by omega),
    ofNat_eq_of_toNat_eq second (by omega),
    ofNat_eq_of_toNat_eq third (by omega),
    ofNat_eq_of_toNat_eq fourth (by omega)]
  rfl

/-- A byte is a character by itself, or it begins none, or it leaves one that can be continued. -/
theorem begin_cases (byte : UInt8) :
    byte.toNat < 0x80 ∨ begin byte = ([replacement], none) ∨
      ∃ pending, begin byte = ([], some pending) ∧ pending.Continues [byte] := by
  rcases Nat.lt_or_ge byte.toNat 0x80 with hone | hone
  · exact .inl hone
  rcases Nat.lt_or_ge byte.toNat 0xC2 with hnone | htwo
  · refine .inr (.inl ?_)
    simp only [begin, UInt8.lt_iff_toNat_lt, UInt8.reduceToNat]
    rw [if_neg (by omega), if_pos hnone]
  rcases Nat.lt_or_ge byte.toNat 0xE0 with htwo' | hthree
  · exact .inr (.inr ⟨_, begin_of_two htwo htwo', continues_two htwo htwo'⟩)
  rcases Nat.lt_or_ge byte.toNat 0xF0 with hthree' | hfour
  · exact .inr (.inr ⟨_, begin_of_three hthree hthree', continues_three hthree hthree'⟩)
  rcases Nat.lt_or_ge byte.toNat 0xF5 with hfour' | hbehind
  · exact .inr (.inr ⟨_, begin_of_four hfour hfour', continues_four hfour hfour'⟩)
  · refine .inr (.inl ?_)
    simp only [begin, UInt8.lt_iff_toNat_lt, UInt8.reduceToNat]
    rw [if_neg (by omega), if_neg (by omega), if_neg (by omega), if_neg (by omega),
      if_neg (by omega)]

end First

/-! ## Damaged parts and the decoder -/

theorem decodeFrom_cons_of_not_admits {pending : Pending} {byte : UInt8}
    (hadmits : ¬pending.Admits byte) (rest : List UInt8) :
    decodeFrom (some pending) (byte :: rest) =
      replacement :: decodeFrom none (byte :: rest) := by
  have hrange : ¬(pending.lowest ≤ byte ∧ byte ≤ pending.highest) := hadmits
  rw [decodeFrom, step, if_neg hrange]
  rfl

/-- The unfinished character that the decoder has behind the bytes of a front part of one. -/
inductive Leaves : List UInt8 → Pending → Prop where
  | first {byte : UInt8} {pending : Pending} (hbegin : begin byte = ([], some pending)) :
      Leaves [byte] pending
  | further {part : List UInt8} {before after : Pending} {byte : UInt8}
      (hleaves : Leaves part before) (hstep : step (some before) byte = ([], some after)) :
      Leaves (part ++ [byte]) after

namespace Leaves

variable {part : List UInt8} {pending : Pending}

theorem decodeFrom_append (hleaves : Leaves part pending) (rest : List UInt8) :
    decodeFrom none (part ++ rest) = decodeFrom (some pending) rest := by
  induction hleaves generalizing rest with
  | first hbegin => exact decodeFrom_begin hbegin rest
  | further _ hstep ih =>
      rw [List.append_assoc, List.singleton_append, ih, decodeFrom, hstep]
      rfl

theorem continues (hleaves : Leaves part pending) : pending.Continues part := by
  induction hleaves with
  | @first byte pending hbegin =>
      rcases begin_cases byte with hone | hnone | ⟨found, hfound, hcontinues⟩
      · cases hbegin.symm.trans (begin_of_one hone)
      · cases hbegin.symm.trans hnone
      · obtain rfl : found = pending := by simpa [hfound] using hbegin
        exact hcontinues
  | @further part before after byte _ hstep ih =>
      simp only [step, Pending.extend] at hstep
      split_ifs at hstep with hadmits hmissing
      · cases hstep
      · obtain ⟨-, hafter⟩ := Prod.mk.inj hstep
        rw [← Option.some.inj hafter]
        refine ⟨by simp only; omega, by simp, ?_⟩
        intro next more hnext hmore hlength
        have hfurther : ∀ further ∈ next :: more, IsFurther further :=
          List.forall_mem_cons.mpr ⟨hnext, hmore⟩
        simp only at hlength
        obtain ⟨c, hc⟩ := ih.completes byte (next :: more) hadmits hfurther
          (by rw [List.length_cons]; omega)
        exact ⟨c, by rw [hc, List.append_assoc, List.singleton_append]⟩
      · cases hstep

/-- What the decoder admits next is what characters have there. -/
theorem admits_iff (hleaves : Leaves part pending) (byte : UInt8) :
    pending.Admits byte ↔ Begins (part ++ [byte]) := by
  refine ⟨hleaves.continues.begins_append, ?_⟩
  rintro ⟨c, more, hc⟩
  by_contra hadmits
  have hdecode := decodeFrom_utf8EncodeChar c
  rw [← hc, List.append_assoc, List.singleton_append, hleaves.decodeFrom_append] at hdecode
  rw [decodeFrom_cons_of_not_admits hadmits] at hdecode
  exact decodeFrom_ne_nil (.inr (List.cons_ne_nil byte more)) (List.cons.inj hdecode).2

end Leaves

/-- The decoder is in the middle of a character as long as not all of its bytes are there. -/
theorem exists_leaves {part more : List UInt8} {c : Char} (hpart : part ≠ []) (hmore : more ≠ [])
    (hc : String.utf8EncodeChar c = part ++ more) : ∃ pending, Leaves part pending := by
  induction part using List.reverseRecOn generalizing more with
  | nil => exact absurd rfl hpart
  | append_singleton front byte ih =>
      have hdecode := decodeFrom_utf8EncodeChar c
      rw [hc, List.append_assoc, List.singleton_append] at hdecode
      rcases List.eq_nil_or_concat front with rfl | ⟨_, _, rfl⟩
      · obtain ⟨pending, hbegin⟩ := exists_step_of_decodeFrom_eq hmore hdecode
        exact ⟨pending, .first hbegin⟩
      · rw [List.append_assoc, List.singleton_append] at hc
        obtain ⟨before, hleaves⟩ := ih (by simp) (List.cons_ne_nil byte more) hc
        rw [hleaves.decodeFrom_append] at hdecode
        obtain ⟨after, hstep⟩ := exists_step_of_decodeFrom_eq hmore hdecode
        exact ⟨after, hleaves.further hstep⟩

/-- The decoder gives one replacement character for a damaged part, and then begins anew. -/
theorem Damaged.decode_append {part rest : List UInt8} (hdamaged : Damaged part rest) :
    decode (part ++ rest) = replacement :: decode rest := by
  by_cases hbegins : Begins part
  · obtain ⟨c, more, hc⟩ := hbegins
    have hmore : more ≠ [] := by
      rintro rfl
      rw [List.append_nil] at hc
      exact hdamaged.no_character c (hc ▸ List.prefix_append part rest)
    obtain ⟨pending, hleaves⟩ := exists_leaves hdamaged.ne_nil hmore hc.symm
    rw [decode, hleaves.decodeFrom_append]
    cases rest with
    | nil => rfl
    | cons byte rest =>
        apply decodeFrom_cons_of_not_admits
        intro hadmits
        have hlonger : part ++ [byte] <+: part ++ byte :: rest :=
          ⟨rest, by rw [List.append_assoc, List.singleton_append]⟩
        have hle := hdamaged.maximal _ hlonger ((hleaves.admits_iff byte).mp hadmits)
        rw [List.length_append, List.length_singleton] at hle
        omega
  · obtain ⟨byte, rfl⟩ :=
      List.length_eq_one_iff.mp (hdamaged.begins_or_single.resolve_left hbegins)
    rcases begin_cases byte with hone | hnone | ⟨pending, -, hcontinues⟩
    · refine absurd ?_ (hdamaged.no_character (charOf byte))
      rw [utf8EncodeChar_charOf hone]
      exact List.prefix_append _ _
    · rw [decode, List.singleton_append, decodeFrom, step, hnone]
      rfl
    · exact absurd hcontinues.begins hbegins

/-- **The decoder follows the rule**, and there is one text for all bytes that does. -/
theorem denotes_iff {bytes : List UInt8} {text : List Char} :
    Denotes bytes text ↔ text = decode bytes := by
  have hsound : ∀ {bytes text}, Denotes bytes text → text = decode bytes := by
    intro bytes text hdenotes
    induction hdenotes with
    | nil => rfl
    | character c _ ih => rw [decode, decodeFrom_character, ih, decode]
    | damaged hdamaged _ ih => rw [hdamaged.decode_append, ih]
  refine ⟨hsound, ?_⟩
  rintro rfl
  obtain ⟨text, htext⟩ := exists_denotes bytes
  exact hsound htext ▸ htext

end LetterMachine.Utf8
