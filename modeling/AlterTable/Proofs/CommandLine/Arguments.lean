import AlterTable.CommandLine
import Mathlib.Data.List.Basic

/-!
# Where options stand

Arguments are read from left to right, and a `-d` takes the one behind it, whatever that is. `Says`
relates a list of arguments to what they say, one thing after the other and without any state. Of
that only the positional arguments, in their order, and the last dialect count for the options that
the reading ends with (`Says.options_eq`). So what a run leaves behind does not depend on where the
options stand, and a `-v` makes no difference unless it is put behind a `-d` that takes it
(`run_determined`).
-/

namespace AlterTable.CommandLine

/-- What an argument says, or an option together with its value. -/
inductive Argument where
  | verbose
  | dialect (name : String)
  | positional (text : String) (plain : text ≠ "-v" ∧ text ≠ "-d")
deriving DecidableEq

namespace Argument

/-- The arguments that say this. -/
def written : Argument → List String
  | verbose => ["-v"]
  | dialect name => ["-d", name]
  | positional text _ => [text]

/-- The dialect, if one is named. -/
def dialect? : Argument → Option String
  | dialect name => some name
  | _ => none

/-- The text of a positional argument. -/
def positional? : Argument → Option String
  | positional text _ => some text
  | _ => none

end Argument

/-- The arguments say these things one after the other. A `-d` with nothing behind it names the
empty text. -/
inductive Says : List String → List Argument → Prop
  | nil : Says [] []
  | cut : Says ["-d"] [.dialect ""]
  | cons (a : Argument) {args : List String} {said : List Argument} :
      Says args said → Says (a.written ++ args) (a :: said)

/-- The arguments that are no option and no value of one, in order. -/
def positionals (said : List Argument) : List String :=
  said.filterMap Argument.positional?

/-- The dialects that are named, in order. -/
def dialects (said : List Argument) : List String :=
  said.filterMap Argument.dialect?

/-- The dialect that is named last, or else the one that need not be named. -/
def lastDialect (said : List Argument) : String :=
  (dialects said).getLast?.getD "mysql"

/-- The last argument is a `-d` that takes whatever is put behind it. -/
def Awaits (args : List String) : Prop :=
  ∃ said : List Argument, args = said.flatMap Argument.written ++ ["-d"]

/-- The report is one that these positional arguments and this name of a dialect lead to. -/
structure Report.Answers (r : Report) (positional : List String) (dialect : String) : Prop where
  status_eq_two_iff : r.status = 2 ↔
    positional.length ≠ 2 ∨ Text.lower dialect.toList ≠ "mysql".toList
  status_eq_one_iff : ∀ text columns, positional = [text, columns] →
    Text.lower dialect.toList = "mysql".toList →
      (r.status = 1 ↔ ∃ e, Dialect.mysql.read text (some (readLayout columns)) = .error e)
  status_eq_zero_iff : ∀ text columns, positional = [text, columns] →
    Text.lower dialect.toList = "mysql".toList →
      (r.status = 0 ↔ ∃ s, Dialect.mysql.read text (some (readLayout columns)) = .ok s)
  output_eq : r.status ≠ 0 → r.output = ""

variable {args args' front back : List String} {said said' : List Argument} {a a' : Argument}

/-- Verbosity is no positional argument. -/
@[simp] theorem positionals_verbose : positionals (.verbose :: said) = positionals said := rfl

/-- A dialect is no positional argument. -/
@[simp] theorem positionals_dialect (name : String) :
    positionals (.dialect name :: said) = positionals said := rfl

/-- A positional argument is one of them. -/
@[simp] theorem positionals_positional (text : String) (plain : text ≠ "-v" ∧ text ≠ "-d") :
    positionals (.positional text plain :: said) = text :: positionals said := rfl

/-- Positional arguments of two lists are those of the first and then those of the second. -/
@[simp] theorem positionals_append :
    positionals (said ++ said') = positionals said ++ positionals said' :=
  List.filterMap_append

/-- Verbosity names no dialect. -/
@[simp] theorem dialects_verbose : dialects (.verbose :: said) = dialects said := rfl

/-- A dialect is one of those that are named. -/
@[simp] theorem dialects_dialect (name : String) :
    dialects (.dialect name :: said) = name :: dialects said := rfl

/-- A positional argument names no dialect. -/
@[simp] theorem dialects_positional (text : String) (plain : text ≠ "-v" ∧ text ≠ "-d") :
    dialects (.positional text plain :: said) = dialects said := rfl

/-- Dialects of two lists are those of the first and then those of the second. -/
@[simp] theorem dialects_append : dialects (said ++ said') = dialects said ++ dialects said' :=
  List.filterMap_append

/-! ## What arguments say -/

/-- Where something is said, it is said in one way. -/
theorem written_append_inj {rest rest' : List String}
    (h : a.written ++ rest = a'.written ++ rest') : a = a' ∧ rest = rest' := by
  cases a <;> cases a' <;> grind [Argument.written]

private theorem written_append_ne_cut : a.written ++ args ≠ ["-d"] := by
  cases a with
  | verbose => simp [Argument.written]
  | dialect name => simp [Argument.written]
  | positional text plain => simp [Argument.written, plain.2]

private theorem written_append_ne_nil : a.written ++ args ≠ [] := by
  cases a <;> exact List.cons_ne_nil _ _

/-- Arguments say one thing only. -/
theorem Says.unique (h : Says args said) (h' : Says args said') : said = said' := by
  induction h generalizing said' with
  | nil =>
    generalize hargs : ([] : List String) = args at h'
    cases h' with
    | nil => rfl
    | cut => cases hargs
    | cons => exact absurd hargs.symm written_append_ne_nil
  | cut =>
    generalize hargs : ["-d"] = args at h'
    cases h' with
    | nil => cases hargs
    | cut => rfl
    | cons => exact absurd hargs.symm written_append_ne_cut
  | @cons a args said _ ih =>
    generalize hargs : a.written ++ args = all at h'
    cases h' with
    | nil => exact absurd hargs written_append_ne_nil
    | cut => exact absurd hargs written_append_ne_cut
    | cons a' hrest =>
      obtain ⟨rfl, rfl⟩ := written_append_inj hargs
      rw [ih hrest]

/-- Whatever the arguments are, they say something. -/
theorem exists_says (args : List String) : ∃ said, Says args said := by
  induction args, ({} : Options) using Options.ofArguments.induct with
  | case1 => exact ⟨_, .nil⟩
  | case2 _ args ih =>
    obtain ⟨said, h⟩ := ih
    exact ⟨_, .cons .verbose h⟩
  | case3 => exact ⟨_, .cut⟩
  | case4 name args _ ih =>
    obtain ⟨said, h⟩ := ih
    exact ⟨_, .cons (.dialect name) h⟩
  | case5 arg args _ hverbose hcut hdialect ih =>
    obtain ⟨said, h⟩ := ih
    have hplain : arg ≠ "-d" := by
      intro harg
      cases args with
      | nil => exact hcut harg rfl
      | cons name args => exact hdialect name args harg rfl
    exact ⟨_, .cons (.positional arg ⟨hverbose, hplain⟩) h⟩

/-! ## The options that are read -/

/-- The options after everything that is said. -/
def Options.after (o : Options) (said : List Argument) : Options where
  dialect := (dialects said).getLast?.getD o.dialect
  positional := o.positional ++ positionals said

private theorem Options.after_dialect (o : Options) (name : String) (said : List Argument) :
    Options.after { o with dialect := name } said = o.after (.dialect name :: said) := by
  simp [after, List.getLast?_cons]

private theorem Options.after_positional (o : Options) (text : String)
    (plain : text ≠ "-v" ∧ text ≠ "-d") (said : List Argument) :
    Options.after { o with positional := o.positional ++ [text] } said =
      o.after (.positional text plain :: said) := by
  simp [after]

/-- Reading the arguments ends with the options that they say. -/
theorem Says.ofArguments_eq (h : Says args said) (o : Options) :
    Options.ofArguments args o = o.after said := by
  induction h generalizing o with
  | nil => simp [Options.ofArguments, Options.after, positionals, dialects]
  | cut => simp [Options.ofArguments, Options.after, positionals, dialects,
      Argument.positional?, Argument.dialect?]
  | cons a _ ih =>
    cases a with
    | verbose => exact ih o
    | dialect name => exact (ih _).trans (o.after_dialect name _)
    | positional text plain =>
      rw [Argument.written, List.singleton_append, Options.ofArguments, ih, o.after_positional]
      · exact plain.1
      · exact fun hcut _ => plain.2 hcut
      · exact fun _ _ hdialect _ => plain.2 hdialect

/-- The options are the last dialect and the positional arguments. -/
theorem Says.options_eq (h : Says args said) :
    Options.ofArguments args {} = ⟨lastDialect said, positionals said⟩ :=
  h.ofArguments_eq {}

/-- A run depends on the options only. -/
theorem run_congr (h : Options.ofArguments args {} = Options.ofArguments args' {}) :
    run args = run args' := by
  rw [run, run, h]

/-! ## Arguments without a dialect that is wanted -/

/-- Arguments that are written in front say what they are written for. -/
theorem Says.behind (said : List Argument) (h : Says back said') :
    Says (said.flatMap Argument.written ++ back) (said ++ said') := by
  induction said with
  | nil => exact h
  | cons a said ih =>
    rw [List.flatMap_cons, List.append_assoc, List.cons_append]
    exact .cons a ih

/-- Unless a dialect is wanted at their end, arguments are the ways to write what they say. -/
theorem Says.eq_flatMap (h : Says args said) (hclosed : ¬ Awaits args) :
    args = said.flatMap Argument.written := by
  induction h with
  | nil => rfl
  | cut => exact absurd ⟨[], rfl⟩ hclosed
  | cons a _ ih =>
    rw [List.flatMap_cons, ← ih]
    rintro ⟨said, rfl⟩
    refine hclosed ⟨a :: said, ?_⟩
    rw [List.flatMap_cons, List.append_assoc]

private theorem not_awaits_of_getLast? (h : args.getLast? ≠ some "-d") : ¬ Awaits args := by
  rintro ⟨said, rfl⟩
  exact h List.getLast?_concat

/-- A `-v` that is not taken for a dialect makes no difference. -/
theorem run_verbose (hclosed : ¬ Awaits front) (back : List String) :
    run (front ++ "-v" :: back) = run (front ++ back) := by
  obtain ⟨said, hfront⟩ := exists_says front
  obtain ⟨said', hback⟩ := exists_says back
  have hwith : Says (front ++ "-v" :: back) (said ++ .verbose :: said') := by
    rw [hfront.eq_flatMap hclosed]
    exact (Says.cons .verbose hback).behind said
  have hwithout : Says (front ++ back) (said ++ said') := by
    rw [hfront.eq_flatMap hclosed]
    exact hback.behind said
  refine run_congr ?_
  rw [hwith.options_eq, hwithout.options_eq, lastDialect, lastDialect]
  simp

/-! ## Reports -/

private theorem ofName_of_eq {name : String} (h : Text.lower name.toList = "mysql".toList) :
    Dialect.ofName name = .ok .mysql :=
  if_pos (Text.sameLetters_iff.mpr (h.trans rfl))

private theorem ofName_of_ne {name : String} (h : Text.lower name.toList ≠ "mysql".toList) :
    Dialect.ofName name = .error (.unsupported name) :=
  if_neg fun hsame => h ((Text.sameLetters_iff.mp hsame).trans rfl)

section

variable {positional : List String} {text columns name : String}

/-- Without exactly two positional arguments the usage is reported, with status 2. -/
theorem run_of_length (h : Options.ofArguments args {} = ⟨name, positional⟩)
    (hlength : positional.length ≠ 2) : run args = { status := 2, errors := usage ++ "\n" } := by
  simp only [run, h]
  split
  · exact absurd rfl hlength
  · rfl

/-- An unknown dialect is reported with status 2, before anything is read. -/
theorem run_of_unsupported (h : Options.ofArguments args {} = ⟨name, [text, columns]⟩)
    (hname : Text.lower name.toList ≠ "mysql".toList) :
    run args = .failure 2 (.unsupported name) := by
  simp only [run, h, ofName_of_ne hname]

/-- What the statement is refused with is reported with status 1. -/
theorem run_of_error {e : Error} (h : Options.ofArguments args {} = ⟨name, [text, columns]⟩)
    (hname : Text.lower name.toList = "mysql".toList)
    (hread : Dialect.mysql.read text (some (readLayout columns)) = .error e) :
    run args = .failure 1 e := by
  simp only [run, h, ofName_of_eq hname, hread]

/-- What the statement says is reported with status 0. -/
theorem run_of_ok {s : Statement} (h : Options.ofArguments args {} = ⟨name, [text, columns]⟩)
    (hname : Text.lower name.toList = "mysql".toList)
    (hread : Dialect.mysql.read text (some (readLayout columns)) = .ok s) :
    run args = .success .mysql s := by
  simp only [run, h, ofName_of_eq hname, hread]

/-- The number of positional arguments is asked for first, then the dialect, then the statement. -/
theorem answers_of_options (h : Options.ofArguments args {} = ⟨name, positional⟩) :
    (run args).Answers positional name := by
  by_cases hlength : positional.length = 2
  · obtain ⟨text, columns, rfl⟩ := List.length_eq_two.mp hlength
    by_cases hname : Text.lower name.toList = "mysql".toList
    · cases hread : Dialect.mysql.read text (some (readLayout columns)) with
      | error e =>
        rw [run_of_error h hname hread]
        constructor <;> simp [Report.failure, hname, hread]
      | ok s =>
        rw [run_of_ok h hname hread]
        constructor <;> simp [Report.success, hname, hread]
    · rw [run_of_unsupported h hname]
      exact ⟨iff_of_true rfl (.inr hname), fun _ _ _ hmysql => absurd hmysql hname,
        fun _ _ _ hmysql => absurd hmysql hname, fun _ => rfl⟩
  · have hno : ∀ text columns, positional ≠ [text, columns] := by
      rintro text columns rfl
      exact hlength rfl
    rw [run_of_length h hlength]
    exact ⟨iff_of_true rfl (.inl hlength), fun _ _ htwo _ => absurd htwo (hno _ _),
      fun _ _ htwo _ => absurd htwo (hno _ _), fun _ => rfl⟩

end

/-! ## Runs -/

/-- Arguments say things in one way only, and a run depends on the positional ones in their order
and on the last dialect alone. So a `-v` may be put in or left out anywhere but behind a `-d` that
takes it, and the status and the output are those of the two positional arguments, whatever options
stand between them. -/
theorem run_determined (args : List String) : ∃ said,
    (∀ said', Says args said' ↔ said' = said) ∧
      (∀ args' said', Says args' said' → positionals said' = positionals said →
        lastDialect said' = lastDialect said → run args' = run args) ∧
      (∀ front back, args = front ++ back → ¬ Awaits front →
        run (front ++ "-v" :: back) = run args) ∧
      (run args).Answers (positionals said) (lastDialect said) := by
  obtain ⟨said, h⟩ := exists_says args
  refine ⟨said, fun said' => ⟨fun h' => h'.unique h, fun heq => heq ▸ h⟩, ?_, ?_,
    answers_of_options h.options_eq⟩
  · intro args' said' h' hpositional hdialect
    refine run_congr ?_
    rw [h'.options_eq, h.options_eq, hpositional, hdialect]
  · rintro front back rfl hclosed
    exact run_verbose hclosed back

/-- Arguments of which a `-d` takes a `-v`. -/
def taking : List String :=
  ["-d", "-v", "ALTER TABLE t DROP a", "-d", "MySQL", "a,b"]

/-- The same positional arguments with the options elsewhere. -/
def scattered : List String :=
  ["ALTER TABLE t DROP a", "-v", "a,b", "-d", "-d", "-v", "-d", "MySQL"]

/-- Options in three arrangements, one of them with a `-d` that takes another `-d`, and one report.
-/
theorem run_determined_taking : run scattered = run taking ∧
    run (["-d", "-v"] ++ "-v" :: ["ALTER TABLE t DROP a", "-d", "MySQL", "a,b"]) = run taking ∧
    (run taking).status = 0 := by
  have hplain : "ALTER TABLE t DROP a" ≠ "-v" ∧ "ALTER TABLE t DROP a" ≠ "-d" := by decide
  have hplain' : "a,b" ≠ "-v" ∧ "a,b" ≠ "-d" := by decide
  have htaking : Says taking [.dialect "-v", .positional _ hplain, .dialect "MySQL",
      .positional _ hplain'] :=
    .cons (.dialect "-v") (.cons (.positional _ hplain) (.cons (.dialect "MySQL")
      (.cons (.positional _ hplain') .nil)))
  have hscattered : Says scattered [.positional _ hplain, .verbose, .positional _ hplain',
      .dialect "-d", .verbose, .dialect "MySQL"] :=
    .cons (.positional _ hplain) (.cons .verbose (.cons (.positional _ hplain')
      (.cons (.dialect "-d") (.cons .verbose (.cons (.dialect "MySQL") .nil)))))
  have hopen : ¬ Awaits ["-d", "-v"] := not_awaits_of_getLast? (by decide)
  have hmysql : Text.lower "MySQL".toList = "mysql".toList := by decide
  have hread : ∃ s,
      Dialect.mysql.read "ALTER TABLE t DROP a" (some (readLayout "a,b")) = .ok s := by
    refine ⟨{ table := "t", droppedColumns := ["a"], layout := some [⟨"b", "TEXT", {}⟩] }, ?_⟩
    decide +kernel
  obtain ⟨said, hsaid, hdepends, hverbose, hanswers⟩ := run_determined taking
  obtain rfl := (hsaid _).mp htaking
  refine ⟨hdepends _ _ hscattered rfl rfl, hverbose _ _ rfl hopen, ?_⟩
  exact (hanswers.status_eq_zero_iff _ _ rfl hmysql).mpr hread

end AlterTable.CommandLine
