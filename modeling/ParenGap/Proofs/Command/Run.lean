import Mathlib.Tactic
import ParenGap.Command
import ParenGap.Command.World

/-!
# Runs in a world

What a run does in a world, stage by stage: how files are read and written, what each stage answers
and leaves behind, and how the run goes on after the fix.
-/

set_option autoImplicit false

namespace ParenGap

/-! ## Reading and writing in a world

A write replaces the content of the file that its path leads to, which a read of the same file then
gives back (`read_put_self`), and leaves every other file as it is (`read_put_of_not_leadsTo`). It
is refused exactly if the file cannot be written (`write_of_leadsTo`). Writing to standard output or
standard error touches no file.
-/

/-- A text comes back from its UTF-8 form. -/
theorem decodeUtf8_toUTF8 (text : String) : decodeUtf8 text.toUTF8 = .ok text := by
  have h : String.fromUTF8? text.toUTF8 = some text := dif_pos text.isValidUTF8
  rw [decodeUtf8, h]

namespace World

/-- The path leads to the file with the given name. -/
def LeadsTo (w : World) (path name : String) : Prop :=
  resolve (w.files.map Prod.fst) path = .file name

/-- The file that the path leads to, if there is one, can be written. -/
def Writable (w : World) (refusals : Refusals) (path : String) : Prop :=
  ∀ name, w.LeadsTo path name → refusals name = none

/-- The world with another content of the file with the given name. -/
def put (w : World) (name : String) (content : ByteArray) : World :=
  { w with files := w.files.map fun file => if file.1 == name then (name, content) else file }

/-- The world with more on standard output. -/
def printed (w : World) (text : String) : World := { w with output := w.output ++ text }

/-- The world with more on standard error. -/
def warned (w : World) (text : String) : World := { w with errors := w.errors ++ text }

section Lemmas

variable {w w' : World} {refusals : Refusals} {path name : String} {content : ByteArray}
  {text : String}

@[simp] theorem printed_files : (w.printed text).files = w.files := rfl

@[simp] theorem printed_output : (w.printed text).output = w.output ++ text := rfl

@[simp] theorem warned_files : (w.warned text).files = w.files := rfl

@[simp] theorem warned_output : (w.warned text).output = w.output := rfl

/-- What a path leads to does not depend on what the files hold. -/
@[simp] theorem map_fst_put : (w.put name content).files.map Prod.fst = w.files.map Prod.fst := by
  rw [put, List.map_map]
  apply List.map_congr_left
  intro file _
  by_cases h : file.1 = name <;> simp [h]

theorem leadsTo_put_iff {other : String} :
    (w.put name content).LeadsTo path other ↔ w.LeadsTo path other := by
  rw [LeadsTo, LeadsTo, map_fst_put]

/-- A path leads to one file at most. -/
theorem LeadsTo.unique {other : String} (h : w.LeadsTo path name) (h' : w.LeadsTo path other) :
    name = other :=
  Target.file.inj (h.symm.trans h')

/-- A path leads only to files that are there. -/
theorem LeadsTo.mem (h : w.LeadsTo path name) : name ∈ w.files.map Prod.fst := by
  unfold LeadsTo resolve at h
  split at h
  · cases h
  · simp only at h
    split at h
    · cases h
    · split at h
      · cases h
      · split at h
        · cases h
        · split at h
          · rename_i hcontains
            split at h
            · cases h
              exact List.contains_iff_mem.1 hcontains
            · cases h
          · cases h

/-- What the files hold is all that a read depends on. -/
theorem read_congr (h : w.files = w'.files) (path : String) : w.read path = w'.read path := by
  rw [read, read, h]

theorem read_eq_of_leadsTo (h : w.LeadsTo path name) :
    w.read path = match w.files.lookup name with
      | some bytes => .ok bytes
      | none => .error .notFound := by
  unfold read
  split
  · rename_i error herror
    cases h.symm.trans herror
  · rename_i other hother
    obtain rfl := h.unique hother
    cases w.files.lookup name <;> rfl

/-- What can be read is a file. -/
theorem exists_leadsTo_of_read {bytes : ByteArray} (h : w.read path = .ok bytes) :
    ∃ name, w.LeadsTo path name := by
  unfold read at h
  split at h
  · cases h
  · rename_i name hname
    exact ⟨name, hname⟩

theorem write_of_leadsTo (h : w.LeadsTo path name) :
    w.write refusals path text = match refusals name with
      | some error => .error error
      | none => .ok (w.put name text.toUTF8) := by
  rw [LeadsTo] at h
  simp only [write, h]
  cases refusals name <;> rfl

/-- A write that is not refused is one to a file that can be written. -/
theorem write_eq_ok_iff : w.write refusals path text = .ok w' ↔
    ∃ name, w.LeadsTo path name ∧ refusals name = none ∧ w' = w.put name text.toUTF8 := by
  constructor
  · intro h
    cases htarget : resolve (w.files.map Prod.fst) path with
    | nothing error => simp [write, htarget] at h
    | file name =>
        rw [write_of_leadsTo htarget] at h
        cases hrefusal : refusals name with
        | some error => simp [hrefusal] at h
        | none =>
            rw [hrefusal, Except.ok.injEq] at h
            exact ⟨name, htarget, hrefusal, h.symm⟩
  · rintro ⟨name, hname, hrefusal, rfl⟩
    rw [write_of_leadsTo hname, hrefusal]

theorem lookup_put_files (w : World) (name other : String) (content : ByteArray) :
    (w.put name content).files.lookup other =
      if other = name then (w.files.lookup other).map fun _ => content
      else w.files.lookup other := by
  simp only [put, beq_iff_eq]
  induction w.files with
  | nil => simp
  | cons file files ih =>
      obtain ⟨first, bytes⟩ := file
      -- the file that is looked up, if it comes first, is the one that is written to or another one
      by_cases hother : other = first
      · subst hother
        by_cases hname : other = name <;> simp [hname]
      · have hskip : (other == first) = false := by simpa using hother
        by_cases hname : first = name
        · subst hname
          simp [List.lookup_cons, hskip, ih, hother]
        · simp [List.lookup_cons, hskip, hname, ih]

/-- A file that has been written to gives back what has been written. -/
theorem read_put_self (h : w.LeadsTo path name) : (w.put name content).read path = .ok content := by
  obtain ⟨bytes, hbytes⟩ : ∃ bytes, w.files.lookup name = some bytes := by
    obtain ⟨file, hfile, rfl⟩ := List.mem_map.1 h.mem
    exact Option.isSome_iff_exists.1 (List.lookup_isSome_iff.2 ⟨file, hfile, beq_self_eq_true _⟩)
  rw [read_eq_of_leadsTo (leadsTo_put_iff.2 h), lookup_put_files]
  simp [hbytes]

/-- A write leaves every other file as it is. -/
theorem read_put_of_not_leadsTo (h : ¬ w.LeadsTo path name) :
    (w.put name content).read path = w.read path := by
  rw [read, read, map_fst_put]
  split
  · rfl
  · rename_i other hother
    have hne : other ≠ name := by
      rintro rfl
      exact h hother
    rw [lookup_put_files, if_neg hne]

end Lemmas

end World

/-! ## The stages of a run

What a run reads of a world is its configuration (`World.config`) and its text (`World.code`). The
stages of a run are then equations on worlds: `act_mend` is all that may change a file, and
`act_checkAndReport` only writes to standard output or standard error. `World.run` is a whole run.
-/

open Command (Failure)

namespace World

/-- The configuration in the file that a path leads to. -/
def configAt (w : World) (path : String) : Except Failure Config :=
  (((w.read path).bind decodeUtf8).mapError (Failure.access path)).bind fun text =>
    (Config.read text.toList).mapError (Failure.config path)

/-- The configuration of a run with the given options. -/
def config (w : World) (options : Options) : Except Failure Config :=
  match options.config with
  | some path => w.configAt path
  | none => .ok Config.default

/-- The text that a run with the given options starts from. -/
def code (w : World) (options : Options) : Except Failure (List Char) :=
  (((if options.isStdin then .ok w.input else w.read options.file).bind decodeUtf8).mapError
    Failure.input).map fun text => Text.trimEnd text.toList

/-- The policy of a run: that of the options, else that of the configuration file, else `never`. A
configuration file that is named has to be there and to hold a configuration. -/
def Settles (w : World) (options : Options) (policy : Policy) : Prop :=
  match options.config with
  | none => policy = options.policy.getD .never
  | some path => ∃ bytes text config, w.read path = .ok bytes ∧ decodeUtf8 bytes = .ok text ∧
      Config.read text.toList = .ok config ∧ policy = options.policy.getD config.policy

/-- The input of a run can be read, and it holds the text with white space after it at most. -/
def Holds (w : World) (options : Options) (code : List Char) : Prop :=
  ∃ bytes text, (if options.isStdin then w.input = bytes else w.read options.file = .ok bytes) ∧
    decodeUtf8 bytes = .ok text ∧ Text.trimEnd text.toList = code

/-- The world with a report on it, in the place where reports go. -/
def reported (w : World) (options : Options) (report : String) : World :=
  if Command.reportsToOutput options then w.printed report else w.warned report

/-- A run in a world: its exit status, and the world after it. -/
def run (w : World) (refusals : Refusals) (parser : Parser) (args : List String) : Nat × World :=
  Id.run ((Command.run (host refusals) parser args).run w)

section Input

variable {w : World} {options : Options} {policy : Policy} {config : Config} {code : List Char}

theorem configAt_eq_ok_iff {path : String} : w.configAt path = .ok config ↔
    ∃ bytes text, w.read path = .ok bytes ∧ decodeUtf8 bytes = .ok text ∧
      Config.read text.toList = .ok config := by
  rw [configAt]
  cases w.read path with
  | error error => simp [Except.bind, Except.mapError]
  | ok bytes =>
      cases h : decodeUtf8 bytes with
      | error error => simp [Except.bind, Except.mapError, h]
      | ok text =>
          cases h' : Config.read text.toList <;> simp [Except.bind, Except.mapError, h, h']

/-- A policy is settled exactly if the configuration is there. -/
theorem settles_iff : w.Settles options policy ↔
    ∃ config, w.config options = .ok config ∧ Command.effectivePolicy options config = policy := by
  rw [Settles, config]
  cases options.config with
  | none => simp [Config.default, Policy.default, Command.effectivePolicy, eq_comm]
  | some path =>
      simp only [configAt_eq_ok_iff, Command.effectivePolicy]
      constructor
      · rintro ⟨bytes, text, config, hread, htext, hconfig, rfl⟩
        exact ⟨config, ⟨bytes, text, hread, htext, hconfig⟩, rfl⟩
      · rintro ⟨config, ⟨bytes, text, hread, htext, hconfig⟩, rfl⟩
        exact ⟨bytes, text, config, hread, htext, hconfig, rfl⟩

theorem holds_iff : w.Holds options code ↔ w.code options = .ok code := by
  rw [Holds, World.code]
  by_cases hstdin : options.isStdin = true
  · simp only [hstdin, if_true]
    cases h : decodeUtf8 w.input <;> simp [Except.bind, Except.mapError, Except.map, h]
  · simp only [hstdin]
    cases w.read options.file with
    | error error => simp [Except.bind, Except.mapError, Except.map]
    | ok bytes => cases h : decodeUtf8 bytes <;> simp [Except.bind, Except.mapError, Except.map, h]

end Input

@[simp] theorem reported_files (w : World) (options : Options) (report : String) :
    (w.reported options report).files = w.files := by
  rw [reported]
  split <;> rfl

end World

namespace Command

open World (host Refusals)

/-- What an action of a run does in a world: its outcome, and the world after it. -/
def act {α : Type} (action : ExceptT Failure (StateM World) α) (w : World) :
    Except Failure α × World :=
  Id.run (action.run.run w)

section Actions

variable {α β : Type} {action : ExceptT Failure (StateM World) α}
  {next : α → ExceptT Failure (StateM World) β} {w w' : World} {refusals : Refusals} {a : α}
  {failure : Failure}

theorem act_bind_of_ok (h : act action w = (.ok a, w')) :
    act (action >>= next) w = act (next a) w' := by
  simp only [act] at h ⊢
  simp [ExceptT.run_bind, h]

theorem act_bind_of_error (h : act action w = (.error failure, w')) :
    act (action >>= next) w = (.error failure, w') := by
  simp only [act] at h ⊢
  simp [ExceptT.run_bind, h]

/-- An answer that is there already changes nothing. -/
theorem act_bind_liftM (answer : Except Failure α) :
    act (liftM answer >>= next) w = match answer with
      | .error failure => (.error failure, w)
      | .ok a => act (next a) w := by
  cases answer with
  | error failure =>
      have hlift : act (liftM (Except.error failure : Except Failure α)) w =
          (.error failure, w) := rfl
      exact act_bind_of_error hlift
  | ok a =>
      have hlift : act (liftM (Except.ok a : Except Failure α)) w = (.ok a, w) := rfl
      exact act_bind_of_ok hlift

theorem act_readFile (path : String) :
    act (liftM ((host refusals).readFile path)) w = (.ok (w.read path), w) := rfl

theorem act_readInput : act (liftM (host refusals).readInput) w = (.ok (.ok w.input), w) := rfl

theorem act_print (text : String) :
    act (liftM ((host refusals).print text)) w = (.ok (), w.printed text) := rfl

theorem act_warn (text : String) :
    act (liftM ((host refusals).warn text)) w = (.ok (), w.warned text) := rfl

theorem host_writeFile (refusals : Refusals) (path text : String) :
    ((host refusals).writeFile path text).run w = match w.write refusals path text with
      | .ok w' => (.ok (), w')
      | .error error => (.error error, w) := by
  simp only [host, StateT.run_bind, StateT.run_get, pure_bind]
  cases w.write refusals path text <;> rfl

theorem act_writeFile (refusals : Refusals) (path text : String) :
    act (liftM ((host refusals).writeFile path text)) w = match w.write refusals path text with
      | .ok w' => (.ok (.ok ()), w')
      | .error error => (.ok (.error error), w) := by
  have hrun := host_writeFile (w := w) refusals path text
  cases hwrite : w.write refusals path text with
  | ok w' =>
      rw [hwrite] at hrun
      exact congrArg (Prod.map Except.ok id) hrun
  | error error =>
      rw [hwrite] at hrun
      exact congrArg (Prod.map Except.ok id) hrun

end Actions

variable {w : World} {refusals : Refusals} {parser : Parser} {options : Options}
  {policy : Policy} {code : List Char}

theorem act_loadConfig (refusals : Refusals) (path : String) :
    act (loadConfig (host refusals) path) w = (w.configAt path, w) := by
  rw [loadConfig, act_bind_of_ok (act_readFile path), World.configAt]
  generalize (w.read path).bind decodeUtf8 = answer
  cases answer with
  | error error => rfl
  | ok text =>
      simp only [Except.mapError, Except.bind]
      generalize Config.read text.toList = answer
      cases answer <;> rfl

theorem act_readCode : act (readCode (host refusals) options) w = (w.code options, w) := by
  rw [readCode, World.code]
  split
  · rw [act_bind_of_ok act_readInput]
    beta_reduce
    generalize Except.bind (.ok w.input) decodeUtf8 = answer
    cases answer <;> rfl
  · rw [act_bind_of_ok (act_readFile _)]
    beta_reduce
    generalize (w.read options.file).bind decodeUtf8 = answer
    cases answer <;> rfl

theorem act_mend : act (mend (host refusals) parser options policy code) w =
    match fixCode parser options.file policy code with
    | .error failure => (.error failure, w)
    | .ok fixed =>
        if options.isStdin then (.ok fixed, w.printed (String.ofList fixed))
        else if fixed = code then (.ok fixed, w)
        else
          match w.write refusals options.file (String.ofList fixed) with
          | .error error => (.error (.access options.file error), w)
          | .ok w' => (.ok fixed, w') := by
  rw [mend, act_bind_liftM]
  cases fixCode parser options.file policy code with
  | error failure => rfl
  | ok fixed =>
      simp only []
      split
      · rw [act_bind_of_ok (act_print _)]
        rfl
      · by_cases heq : fixed = code
        · rw [if_neg (by simpa using heq), if_pos heq]
          rfl
        · rw [if_pos (by simpa using heq), if_neg heq]
          have hact := act_writeFile (w := w) refusals options.file (String.ofList fixed)
          cases hwrite : w.write refusals options.file (String.ofList fixed) with
          | error error =>
              rw [hwrite] at hact
              rw [act_bind_of_ok hact]
              rfl
          | ok w' =>
              rw [hwrite] at hact
              rw [act_bind_of_ok hact]
              rfl

theorem act_checkAndReport :
    act (checkAndReport (host refusals) parser options policy code) w =
      match parseChecked parser options.file code with
      | .error failure => (.error failure, w)
      | .ok source =>
          match source.check? policy with
          | none => (.error .outsideText, w)
          | some findings =>
              match reportText options source findings with
              | .error failure => (.error failure, w)
              | .ok report =>
                  (.ok (if findings.isEmpty then 0 else 1), w.reported options report) := by
  rw [checkAndReport, act_bind_liftM]
  cases parseChecked parser options.file code with
  | error failure => rfl
  | ok source =>
      simp only [act_bind_liftM]
      cases source.check? policy with
      | none => rfl
      | some findings =>
          simp only [orOutside]
          cases reportText options source findings with
          | error failure => rfl
          | ok report =>
              simp only [World.reported]
              split
              · rw [act_bind_of_ok (act_print _)]
                rfl
              · rw [act_bind_of_ok (act_warn _)]
                rfl

theorem act_bind_config {α : Type} (next : Config → ExceptT Failure (StateM World) α) :
    act (match options.config with
      | some path => loadConfig (host refusals) path >>= next
      | none => pure Config.default >>= next) w =
    match w.config options with
    | .error failure => (.error failure, w)
    | .ok config => act (next config) w := by
  rw [World.config]
  cases options.config with
  | none => rfl
  | some path =>
      have hload := act_loadConfig (w := w) refusals path
      cases h : w.configAt path with
      | error failure =>
          rw [h] at hload
          simp only [h]
          exact act_bind_of_error hload
      | ok config =>
          rw [h] at hload
          simp only [h]
          exact act_bind_of_ok hload

theorem act_execute : act (execute (host refusals) parser options) w =
    match w.config options with
    | .error failure => (.error failure, w)
    | .ok config =>
        if options.listRules then (.ok 0, w.printed (Report.plainRules Rule.all))
        else
          match w.code options with
          | .error failure => (.error failure, w)
          | .ok code =>
              let policy := effectivePolicy options config
              if options.fix then
                match act (mend (host refusals) parser options policy code) w with
                | (.error failure, w') => (.error failure, w')
                | (.ok fixed, w') =>
                    act (checkAndReport (host refusals) parser options policy fixed) w'
              else act (checkAndReport (host refusals) parser options policy code) w := by
  rw [execute]
  refine (act_bind_config _).trans ?_
  cases w.config options with
  | error failure => rfl
  | ok config =>
      simp only []
      by_cases hlist : options.listRules = true
      · rw [if_pos hlist, if_pos hlist, act_bind_of_ok (act_print _)]
        rfl
      · rw [if_neg hlist, if_neg hlist]
        have hread : act (readCode (host refusals) options) w = (w.code options, w) := act_readCode
        cases hcode : w.code options with
        | error failure =>
            rw [hcode] at hread
            exact act_bind_of_error hread
        | ok code =>
            rw [hcode] at hread
            rw [act_bind_of_ok hread]
            simp only []
            by_cases hfix : options.fix = true
            · rw [if_pos hfix, if_pos hfix]
              rcases hmend : act (mend (host refusals) parser options
                (effectivePolicy options config) code) w with ⟨failure | fixed, w'⟩
              · exact act_bind_of_error hmend
              · exact act_bind_of_ok hmend
            · rw [if_neg hfix, if_neg hfix]
              rfl

end Command

namespace World

variable {w : World} {refusals : Refusals} {parser : Parser} {args : List String}
  {options : Options}

/-- A run with options is the execution of the options; a failure is reported on standard error. -/
theorem run_of_options (h : Options.ofArguments args = .ok options) : w.run refusals parser args =
    match Command.act (Command.execute (host refusals) parser options) w with
    | (.ok status, w') => (status, w')
    | (.error failure, w') => (failure.status, w'.warned failure.report) := by
  rcases hact : Command.act (Command.execute (host refusals) parser options) w with
    ⟨failure | status, w'⟩
  · rw [Command.act] at hact
    simp only [run, Command.run, h, StateT.run_bind, Id.run_bind, hact]
    rfl
  · rw [Command.act] at hact
    simp only [run, Command.run, h, StateT.run_bind, Id.run_bind, hact]
    rfl

/-- A run that the arguments do not ask for touches no file. -/
theorem run_of_stop {stop : Options.Stop} (h : Options.ofArguments args = .error stop) :
    (w.run refusals parser args).2.files = w.files := by
  simp only [run, Command.run, h]
  cases stop <;> rfl

end World

/-! ## The world after a fix

All that a fix may do to the files is to put the mended text into the input file
(`World.mended_cases`). A run whose configuration and input can be read goes on from the world after
the fix with the text that the fix leaves, or it ends because that file cannot be written
(`World.act_execute_of_leaves`).
-/

/-- The text that is left for the last check of a run: the mended text if a fix is asked for, and
else the text of the input. -/
def Command.Leaves (parser : Parser) (options : Options) (policy : Policy)
    (code code' : List Char) : Prop :=
  if options.fix then fixCode parser options.file policy code = .ok code' else code' = code

/-- A text is left, or the fix fails. -/
theorem Command.leaves_or_error (parser : Parser) (options : Options) (policy : Policy)
    (code : List Char) : (∃ code', Leaves parser options policy code code') ∨
      options.fix = true ∧
        ∃ failure, fixCode parser options.file policy code = .error failure := by
  unfold Leaves
  by_cases hfix : options.fix = true
  · cases hfixed : fixCode parser options.file policy code with
    | error failure => exact .inr ⟨hfix, failure, rfl⟩
    | ok fixed => exact .inl ⟨fixed, by rw [if_pos hfix]⟩
  · exact .inl ⟨code, by rw [if_neg hfix]⟩

namespace World

open Command

/-- The world after a fix, if one is asked for: the mended text goes to standard output if the input
came from standard input, and else to the file, if it is another text. The file may refuse it. -/
def mended (w : World) (refusals : Refusals) (options : Options) (code code' : List Char) :
    Except AccessError World :=
  if options.fix then
    if options.isStdin then .ok (w.printed (String.ofList code'))
    else if code' = code then .ok w
    else w.write refusals options.file (String.ofList code')
  else .ok w

variable {w w' : World} {refusals : Refusals} {parser : Parser} {options : Options}
  {policy : Policy} {name : String} {code code' : List Char}

/-- An input file is there. -/
theorem Holds.exists_leadsTo (h : w.Holds options code) (hstdin : ¬ options.isStdin = true) :
    ∃ name, w.LeadsTo options.file name := by
  obtain ⟨bytes, text, hread, -⟩ := h
  rw [if_neg hstdin] at hread
  exact exists_leadsTo_of_read hread

/-- A mended file is written, or says why it cannot be. -/
theorem mended_of_leadsTo (hfix : options.fix = true) (hstdin : ¬ options.isStdin = true)
    (hname : w.LeadsTo options.file name) (hne : code' ≠ code) :
    w.mended refusals options code code' = match refusals name with
      | some error => .error error
      | none => .ok (w.put name (String.ofList code').toUTF8) := by
  rw [mended, if_pos hfix, if_neg hstdin, if_neg hne]
  exact write_of_leadsTo hname

/-- A fix leaves all files as they are, or it is a write of the mended text, which then is another
one than before, to the input file. -/
theorem mended_eq_ok_or_write (w : World) (refusals : Refusals) (options : Options)
    (code code' : List Char) :
    (∃ w', w.mended refusals options code code' = .ok w' ∧ w'.files = w.files ∧
        (options.fix = true → ¬ options.isStdin = true → code' = code)) ∨
      options.fix = true ∧ ¬ options.isStdin = true ∧ code' ≠ code ∧
        w.mended refusals options code code' =
          w.write refusals options.file (String.ofList code') := by
  unfold mended
  by_cases hfix : options.fix = true
  · rw [if_pos hfix]
    by_cases hstdin : options.isStdin = true
    · exact .inl ⟨_, if_pos hstdin, rfl, fun _ hfile => absurd hstdin hfile⟩
    · rw [if_neg hstdin]
      by_cases hsame : code' = code
      · exact .inl ⟨w, if_pos hsame, rfl, fun _ _ => hsame⟩
      · exact .inr ⟨hfix, hstdin, hsame, if_neg hsame⟩
  · exact .inl ⟨w, if_neg hfix, rfl, fun hfix' => absurd hfix' hfix⟩

/-- A fix that goes through leaves all files as they are, or it puts the mended text into the input
file, which then can be written. -/
theorem mended_cases (h : w.mended refusals options code code' = .ok w') :
    w'.files = w.files ∧ (options.fix = true → ¬ options.isStdin = true → code' = code) ∨
      ∃ name, options.fix = true ∧ ¬ options.isStdin = true ∧ code' ≠ code ∧
        w.LeadsTo options.file name ∧ refusals name = none ∧
        w' = w.put name (String.ofList code').toUTF8 := by
  rcases mended_eq_ok_or_write w refusals options code code' with
    ⟨mended, hmended, hfiles, hsame⟩ | ⟨hfix, hstdin, hne, hmended⟩
  · rw [h, Except.ok.injEq] at hmended
    rw [hmended]
    exact .inl ⟨hfiles, hsame⟩
  · rw [h] at hmended
    obtain ⟨name, hname, hrefusal, hput⟩ := write_eq_ok_iff.1 hmended.symm
    exact .inr ⟨name, hfix, hstdin, hne, hname, hrefusal, hput⟩

/-- A fix that leaves the text as it is changes no file. -/
theorem exists_mended_self (w : World) (refusals : Refusals) (options : Options)
    (code : List Char) :
    ∃ w', w.mended refusals options code code = .ok w' ∧ w'.files = w.files := by
  rcases mended_eq_ok_or_write w refusals options code code with
    ⟨w', hmended, hfiles, -⟩ | ⟨-, -, hne, -⟩
  · exact ⟨w', hmended, hfiles⟩
  · exact absurd rfl hne

/-- A fix of an input that can be read is not refused if the file that it changes can be written. -/
theorem Holds.exists_mended (h : w.Holds options code)
    (hwrite : options.isStdin = false → code' ≠ code → w.Writable refusals options.file) :
    ∃ w', w.mended refusals options code code' = .ok w' := by
  rcases mended_eq_ok_or_write w refusals options code code' with
    ⟨w', hmended, -, -⟩ | ⟨-, hstdin, hne, hmended⟩
  · exact ⟨w', hmended⟩
  · obtain ⟨name, hname⟩ := h.exists_leadsTo hstdin
    have hrefusal := hwrite (by simpa using hstdin) hne name hname
    exact ⟨_, hmended.trans (write_eq_ok_iff.2 ⟨name, hname, hrefusal, rfl⟩)⟩

/-- A fix ends as that of its text does, or with the error of the file that it cannot write. -/
theorem act_mend_of_fixed (hfix : options.fix = true)
    (hfixed : fixCode parser options.file policy code = .ok code') :
    act (mend (host refusals) parser options policy code) w =
      match w.mended refusals options code code' with
      | .error error => (.error (.access options.file error), w)
      | .ok w' => (.ok code', w') := by
  rw [Command.act_mend, hfixed, mended, if_pos hfix]
  simp only []
  split
  · rfl
  · split
    · rfl
    · rfl

/-- A run whose configuration and input can be read, and whose fix succeeds if one is asked for,
goes on with the check of the text that is left, unless a file cannot be written. -/
theorem act_execute_of_leaves (hlist : options.listRules = false)
    (hsettles : w.Settles options policy) (hholds : w.Holds options code)
    (hleaves : Leaves parser options policy code code') :
    act (execute (host refusals) parser options) w =
      match w.mended refusals options code code' with
      | .error error => (.error (.access options.file error), w)
      | .ok w' => act (checkAndReport (host refusals) parser options policy code') w' := by
  obtain ⟨config, hconfig, rfl⟩ := settles_iff.1 hsettles
  rw [act_execute, hconfig, holds_iff.1 hholds]
  simp only [hlist, Bool.false_eq_true, if_false]
  by_cases hfix : options.fix = true
  · rw [Leaves, if_pos hfix] at hleaves
    rw [if_pos hfix, act_mend_of_fixed hfix hleaves]
    cases w.mended refusals options code code' <;> rfl
  · rw [Leaves, if_neg hfix] at hleaves
    rw [if_neg hfix, mended, if_neg hfix, hleaves]

end World

end ParenGap
