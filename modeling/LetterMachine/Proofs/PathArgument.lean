import LetterMachine.CommandLine.Parser

/-!
# A path behind other arguments

What the parser of the arguments is remains open here.  `TakesPaths` says what is relied on: behind
arguments that ask for a path, one more argument is taken for it, either because it cannot be taken
for anything else or because it stands behind `--`.  `withPath` chooses between the two.

The parser at hand is of this kind.  It reads from left to right, and behind the last of the
arguments the reading goes on with the path as it would have gone on anyway.
-/

namespace LetterMachine.CommandLine

/-! ## Arguments that ask for a path -/

/-- A program is to be run whose path is not among the values. -/
def Matches.AsksForPath (found : Matches) : Prop :=
  match found.command? with
  | none => found.values.programPath? = none
  | some (name, values) => (name = "run" ∨ name = "trace") ∧ values.programPath? = none

/-- The same command, or the form without one, with a path. -/
def Matches.withPath (found : Matches) (path : String) : Matches :=
  match found.command? with
  | none => { found with values := { found.values with programPath? := some path } }
  | some (name, values) =>
    { found with command? := some (name, { values with programPath? := some path }) }

def Parsed.AsksForPath : Parsed → Prop
  | .answered _ => False
  | .matched found => found.AsksForPath

def Parsed.withPath (parsed : Parsed) (path : String) : Parsed :=
  match parsed with
  | .answered response => .answered response
  | .matched found => .matched (found.withPath path)

instance : DecidablePred Matches.AsksForPath := fun found =>
  match found with
  | ⟨none, values⟩ => inferInstanceAs (Decidable (values.programPath? = none))
  | ⟨some (name, values), _⟩ =>
    inferInstanceAs (Decidable ((name = "run" ∨ name = "trace") ∧ values.programPath? = none))

instance : DecidablePred Parsed.AsksForPath
  | .answered _ => inferInstanceAs (Decidable False)
  | .matched found => inferInstanceAs (Decidable found.AsksForPath)

/-! ## Where a path is taken for one -/

/-- An argument has the form of an option.  A single hyphen has not. -/
def IsOptionLike (text : String) : Prop :=
  text.toList.head? = some '-' ∧ text ≠ "-"

instance : DecidablePred IsOptionLike := fun text =>
  inferInstanceAs (Decidable (text.toList.head? = some '-' ∧ text ≠ "-"))

/-- Whether an argument behind others is taken for a path.  Behind `--` any argument is; otherwise
it must not have the form of an option, nor be the name of a command in the place of one. -/
def IsPathBehind (arguments : List String) (path : String) : Prop :=
  "--" ∈ arguments ∨ ¬IsOptionLike path ∧ (arguments = [] → path ∉ reservedNames)

instance (arguments : List String) (path : String) : Decidable (IsPathBehind arguments path) :=
  inferInstanceAs (Decidable (_ ∨ _))

/-- Arguments with a path behind them, and with `--` before it if it would be taken for something
else. -/
def withPath (arguments : List String) (path : String) : List String :=
  arguments ++ if IsPathBehind arguments path then [path] else ["--", path]

/-- What is relied on: a path is taken for one behind arguments that ask for it. -/
structure TakesPaths (parse : List String → Parsed) : Prop where
  plain : ∀ arguments path, "--" ∉ arguments → ¬IsOptionLike path →
    (arguments = [] → path ∉ reservedNames) → path ≠ "" → (parse arguments).AsksForPath →
      parse (arguments ++ [path]) = (parse arguments).withPath path
  escaped : ∀ arguments path, "--" ∉ arguments → path ≠ "" → (parse arguments).AsksForPath →
    parse (arguments ++ ["--", path]) = (parse arguments).withPath path
  behind : ∀ arguments path, "--" ∈ arguments → path ≠ "" → (parse arguments).AsksForPath →
    parse (arguments ++ [path]) = (parse arguments).withPath path

theorem TakesPaths.parse_withPath {parse : List String → Parsed} (hparse : TakesPaths parse)
    {arguments : List String} {path : String} (hpath : path ≠ "")
    (hasks : (parse arguments).AsksForPath) :
    parse (CommandLine.withPath arguments path) = (parse arguments).withPath path := by
  rw [CommandLine.withPath]
  by_cases hend : "--" ∈ arguments
  · rw [if_pos (.inl hend)]
    exact hparse.behind arguments path hend hpath hasks
  · by_cases hplain : ¬IsOptionLike path ∧ (arguments = [] → path ∉ reservedNames)
    · rw [if_pos (.inr hplain)]
      exact hparse.plain arguments path hend hplain.1 hplain.2 hpath hasks
    · have hnot : ¬IsPathBehind arguments path := not_or.mpr ⟨hend, hplain⟩
      rw [if_neg hnot]
      exact hparse.escaped arguments path hend hpath hasks

-- A file with the name of a command is told from the command, and needs that only in its place.
example : withPath [] "help" = ["--", "help"] := by decide
example : withPath ["trace", "-v"] "help" = ["trace", "-v", "help"] := by decide

/-! ## The parser -/

theorem Argument.eq_of_ofText {text : String} (hform : ofText text.toList = .endOfOptions) :
    text = "--" := by
  have hchars : text.toList = ['-', '-'] := by
    unfold ofText at hform
    split at hform
    next heq => exact heq
    next => split at hform <;> cases hform
    all_goals cases hform
  exact String.toList_inj.mp hchars

theorem Argument.ofText_of_not_isOptionLike {path : String} (hplain : ¬IsOptionLike path) :
    ofText path.toList = .positional := by
  by_cases hhyphen : path = "-"
  · subst hhyphen
    decide
  · have hhead : path.toList.head? ≠ some '-' := fun hhead => hplain ⟨hhead, hhyphen⟩
    unfold ofText
    split <;> simp_all

theorem exists_of_bind_eq_ok {ε α β : Type} {first : Except ε α} {next : α → Except ε β}
    {result : β} (hbind : first >>= next = .ok result) :
    ∃ value, first = .ok value ∧ next value = .ok result := by
  cases first with
  | error fault => cases hbind
  | ok value => exact ⟨value, rfl, hbind⟩

/-- An argument leads to other values, whatever comes behind it. -/
def LeadsOn (command? : Option Command) (awaited? : Option OptionName) (values : Values)
    (text : String) : Prop :=
  ∃ awaited?' values', ∀ more,
    gather command? awaited? values (text :: more) = gather command? awaited?' values' more

section Gather

variable {command? : Option Command} {awaited? : Option OptionName} {values given : Values}
  {text : String} {rest : List String}

theorem leadsOn_of_positional (hform : Argument.ofText text.toList = .positional)
    (hgather : gather command? awaited? values (text :: rest) = .ok given) :
    LeadsOn command? awaited? values text := by
  cases awaited? with
  | none | some option =>
      simp only [gather, hform] at hgather
      obtain ⟨values', hset, -⟩ := exists_of_bind_eq_ok hgather
      exact ⟨none, values', fun more => by simp only [gather, hform, hset]; rfl⟩

theorem leadsOn_of_short {letters : List Char}
    (hform : Argument.ofText text.toList = .short letters)
    (hgather : gather command? none values (text :: rest) = .ok given) :
    LeadsOn command? none values text := by
  simp only [gather, hform] at hgather
  obtain ⟨values', hset, -⟩ := exists_of_bind_eq_ok hgather
  exact ⟨none, values', fun more => by simp only [gather, hform, hset]; rfl⟩

theorem leadsOn_of_long {name : List Char} {value? : Option (List Char)}
    (hform : Argument.ofText text.toList = .long name value?)
    (hgather : gather command? none values (text :: rest) = .ok given) :
    LeadsOn command? none values text := by
  simp only [gather, hform] at hgather
  cases hoption : (OptionName.ofLongName? name).filter (OptionName.belongsTo command?) with
  | none =>
      simp only [hoption] at hgather
      cases hgather
  | some option =>
      cases value? with
      | some value =>
          simp only [hoption] at hgather
          obtain ⟨values', hset, -⟩ := exists_of_bind_eq_ok hgather
          exact ⟨none, values', fun more => by simp only [gather, hform, hoption, hset]; rfl⟩
      | none =>
          simp only [hoption] at hgather
          by_cases htakes : option.takesValue
          · exact ⟨some option, values,
              fun more => by simp only [gather, hform, hoption, htakes, if_true]⟩
          · rw [if_neg htakes] at hgather
            obtain ⟨values', hset, -⟩ := exists_of_bind_eq_ok hgather
            exact ⟨none, values',
              fun more => by simp only [gather, hform, hoption, if_neg htakes, hset]; rfl⟩

/-- What one argument does, unless the reading stops. -/
theorem gather_cons_cases (hgather : gather command? awaited? values (text :: rest) = .ok given) :
    awaited? = none ∧ text = "--" ∨ text ≠ "--" ∧ LeadsOn command? awaited? values text := by
  by_cases htext : text = "--"
  · refine .inl ⟨?_, htext⟩
    subst htext
    cases awaited? with
    | none => rfl
    | some option => cases hgather
  · refine .inr ⟨htext, ?_⟩
    cases hform : Argument.ofText text.toList with
    | endOfOptions => exact absurd (Argument.eq_of_ofText hform) htext
    | positional => exact leadsOn_of_positional hform hgather
    | short letters =>
        cases awaited? with
        | none => exact leadsOn_of_short hform hgather
        | some option => simp [gather, hform] at hgather
    | long name value? =>
        cases awaited? with
        | none => exact leadsOn_of_long hform hgather
        | some option => simp [gather, hform] at hgather

theorem gather_endOfOptions (values : Values) (rest : List String) :
    gather command? none values ("--" :: rest) = rest.foldlM Values.setPath values := by
  rfl

/-- Arguments behind others are read as those have left the values. -/
theorem gather_append {arguments : List String}
    (hgather : gather command? awaited? values arguments = .ok given) (suffix : List String) :
    gather command? awaited? values (arguments ++ suffix) =
      if "--" ∈ arguments then suffix.foldlM Values.setPath given
      else gather command? none given suffix := by
  induction arguments generalizing awaited? values with
  | nil =>
      cases awaited? with
      | none =>
          obtain rfl := Except.ok.inj hgather
          rfl
      | some option => cases hgather
  | cons text rest ih =>
      cases gather_cons_cases hgather with
      | inl hend =>
          obtain ⟨rfl, rfl⟩ := hend
          have hrest : rest.foldlM Values.setPath values = .ok given := hgather
          rw [List.cons_append, gather_endOfOptions, List.foldlM_append, hrest,
            if_pos List.mem_cons_self]
          rfl
      | inr hon =>
          obtain ⟨htext, awaited?', values', hleads⟩ := hon
          rw [hleads] at hgather
          rw [List.cons_append, hleads, ih hgather]
          simp [htext.symm]

end Gather

section Behind

variable {command? : Option Command} {given : Values} {arguments suffix : List String}
  {path : String} {found : Matches}

theorem setPath_eq (hfree : given.programPath? = none) (hpath : path ≠ "") :
    given.setPath path = .ok { given with programPath? := some path } := by
  simp [Values.setPath, hfree, hpath]

/-- What stands behind arguments is read as a path, whatever has been read before it. -/
def ReadsAsPath (arguments suffix : List String) (path : String) : Prop :=
  ∀ command? given, gather command? none {} arguments = .ok given → given.programPath? = none →
    gather command? none {} (arguments ++ suffix) = .ok { given with programPath? := some path }

theorem readsAsPath_behind (hend : "--" ∈ arguments) (hpath : path ≠ "") :
    ReadsAsPath arguments [path] path := by
  intro command? given hgather hfree
  rw [gather_append hgather, if_pos hend, List.foldlM_cons, setPath_eq hfree hpath]
  rfl

theorem readsAsPath_escaped (hend : "--" ∉ arguments) (hpath : path ≠ "") :
    ReadsAsPath arguments ["--", path] path := by
  intro command? given hgather hfree
  rw [gather_append hgather, if_neg hend, gather_endOfOptions, List.foldlM_cons,
    setPath_eq hfree hpath]
  rfl

theorem readsAsPath_plain (hend : "--" ∉ arguments) (hplain : ¬IsOptionLike path)
    (hpath : path ≠ "") : ReadsAsPath arguments [path] path := by
  intro command? given hgather hfree
  rw [gather_append hgather, if_neg hend]
  simp only [gather, Argument.ofText_of_not_isOptionLike hplain, setPath_eq hfree hpath]
  rfl

/-- A command that asks for a path comes from values without one, and has the path as soon as they
have. -/
theorem ofValues_withPath (hvalues : Matches.ofValues command? given = .ok found)
    (hasks : found.AsksForPath) (path : String) :
    given.programPath? = none ∧
      Matches.ofValues command? { given with programPath? := some path } =
        .ok (found.withPath path) := by
  cases command? with
  | none =>
      obtain rfl := Except.ok.inj hvalues
      exact ⟨hasks, rfl⟩
  | some command =>
      rw [Matches.ofValues] at hvalues
      split at hvalues
      · cases hvalues
      · obtain rfl := Except.ok.inj hvalues
        refine ⟨hasks.2, ?_⟩
        simp [Matches.ofValues, Matches.withPath]

theorem head?_ne_help (hread : readArguments arguments = .ok found) :
    arguments.head? ≠ some "help" := by
  rintro hhelp
  obtain ⟨rest, rfl⟩ := List.head?_eq_some_iff.mp hhelp
  cases rest <;> cases hread

/-- The first argument decides on the command, unless it is the one that asks for help. -/
theorem readArguments_of_ne_help (hhelp : arguments.head? ≠ some "help") :
    readArguments arguments = (do
      let command? := arguments.head?.bind Command.ofName?
      let rest := if command?.isSome then arguments.drop 1 else arguments
      Matches.ofValues command? (← gather command? none {} rest)) := by
  unfold readArguments
  split <;> simp_all

theorem mem_drop_of_ofName? {command : Command}
    (hname : arguments.head?.bind Command.ofName? = some command) :
    "--" ∈ arguments.drop 1 ↔ "--" ∈ arguments := by
  cases arguments with
  | nil => rfl
  | cons first arguments =>
      have hfirst : "--" ≠ first := by
        rintro rfl
        cases hname
      rw [List.mem_cons, or_iff_right hfirst]
      rfl

/-- A path behind the arguments becomes the path of the command. -/
theorem readArguments_append (hread : readArguments arguments = .ok found)
    (hasks : found.AsksForPath)
    (hfirst : arguments = [] →
      suffix.head? ≠ some "help" ∧ suffix.head?.bind Command.ofName? = none)
    (hsuffix : ∀ rest, ("--" ∈ rest ↔ "--" ∈ arguments) → ReadsAsPath rest suffix path) :
    readArguments (arguments ++ suffix) = .ok (found.withPath path) := by
  have hhelp := head?_ne_help hread
  rw [readArguments_of_ne_help hhelp] at hread
  have hhelp' : (arguments ++ suffix).head? ≠ some "help" := by
    cases arguments with
    | nil => exact (hfirst rfl).1
    | cons first arguments => exact hhelp
  have hhead : (arguments ++ suffix).head?.bind Command.ofName? =
      arguments.head?.bind Command.ofName? := by
    cases arguments with
    | nil => exact (hfirst rfl).2
    | cons first arguments => rfl
  rw [readArguments_of_ne_help hhelp', hhead]
  obtain ⟨given, hgather, hvalues⟩ := exists_of_bind_eq_ok hread
  obtain ⟨hfree, hvalues'⟩ := ofValues_withPath hvalues hasks path
  cases hname : arguments.head?.bind Command.ofName? with
  | none =>
      rw [hname] at hgather hvalues'
      have hreads := hsuffix arguments Iff.rfl none given hgather hfree
      simp only [Option.isSome_none, Bool.false_eq_true, if_false, hreads]
      exact hvalues'
  | some command =>
      rw [hname] at hgather hvalues'
      have hdrop : (arguments ++ suffix).drop 1 = arguments.drop 1 ++ suffix := by
        cases arguments with
        | nil => cases hname
        | cons first arguments => rfl
      have hreads := hsuffix _ (mem_drop_of_ofName? hname) (some command) given hgather hfree
      simp only [Option.isSome_some, if_true, hdrop, hreads]
      exact hvalues'

theorem parseArguments_append (hasks : (parseArguments arguments).AsksForPath)
    (hfirst : arguments = [] →
      suffix.head? ≠ some "help" ∧ suffix.head?.bind Command.ofName? = none)
    (hsuffix : ∀ rest, ("--" ∈ rest ↔ "--" ∈ arguments) → ReadsAsPath rest suffix path) :
    parseArguments (arguments ++ suffix) = (parseArguments arguments).withPath path := by
  rw [parseArguments] at hasks
  cases hread : readArguments arguments with
  | ok found =>
      rw [hread] at hasks
      rw [parseArguments, parseArguments, readArguments_append hread hasks hfirst hsuffix, hread]
      rfl
  | error stop =>
      rw [hread] at hasks
      cases hasks

end Behind

theorem ofName?_of_not_mem {text : String} (hname : text ∉ reservedNames) :
    Command.ofName? text = none := by
  simp only [reservedNames, List.mem_cons, List.not_mem_nil, or_false, not_or] at hname
  unfold Command.ofName?
  split <;> simp_all

/-- **The parser takes paths for paths.** -/
theorem takesPaths_parseArguments : TakesPaths parseArguments where
  plain arguments path hend hplain hname hpath hasks := by
    apply parseArguments_append hasks
    · intro hnil
      refine ⟨?_, ofName?_of_not_mem (hname hnil)⟩
      rintro hhelp
      obtain rfl := Option.some.inj hhelp
      exact hname hnil (by decide)
    · intro rest hrest
      exact readsAsPath_plain (mt hrest.mp hend) hplain hpath
  escaped arguments path hend hpath hasks := by
    apply parseArguments_append hasks
    · intro hnil
      exact ⟨by simp, rfl⟩
    · intro rest hrest
      exact readsAsPath_escaped (mt hrest.mp hend) hpath
  behind arguments path hend hpath hasks := by
    apply parseArguments_append hasks
    · rintro rfl
      cases hend
    · intro rest hrest
      exact readsAsPath_behind (hrest.mpr hend) hpath

end LetterMachine.CommandLine
