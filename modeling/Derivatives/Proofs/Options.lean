import Derivatives.Options.Arguments
import Derivatives.Proofs.Number.Reading

/-!
# What arguments do

What the arguments say of one option is a `Setting`: a flag, or the value of the variable, in
the argument that names it or in the next one.

A value in an argument of its own is looked at late, so what the arguments have given is what
there is once it is settled. With this in mind, the arguments of a setting either do what the
setting says to a settled scan (`Scan.apply`) or are refused, whatever follows
(`Scan.Reads`, `Scan.reads_arguments`), and so do those of several settings
(`Scan.reads_flatMap_arguments`).
-/

namespace Derivatives

open Number

/-! ## Settings -/

/-- The name of a flag. -/
def Scan.Flag.name : Scan.Flag → String
  | listExpression => "show-original"
  | evaluate => "evaluate"
  | json => "json"

/-- What the arguments say of one option. -/
inductive Setting
  /-- The value of the variable, in the argument that names the option or in the next one. -/
  | point (joined : Bool) (text : String)
  /-- A flag. -/
  | flag (f : Scan.Flag)
  deriving DecidableEq

namespace Setting

/-- The option that is set. -/
def option : Setting → Scan.LongOption
  | point _ _ => .point
  | flag f => .flag f

/-- The arguments of a setting. -/
def arguments : Setting → List String
  | point true text => ["--at=" ++ text]
  | point false text => ["--at", text]
  | flag f => ["--" ++ f.name]

/-- Whether a text can be a value in an argument of its own. -/
def isValue (text : String) : Bool :=
  match text.toList with
  | '-' :: c :: cs => Scan.isPlainNumber (c :: cs)
  | _ => true

/-- The value of the variable is a number, and can stand where it does. -/
def Valid : Setting → Prop
  | point joined text => (joined = false → isValue text) ∧ (read? text).isSome
  | flag _ => True

/-- The options with what is set. -/
def set (options : Options) : Setting → Options
  | point _ text => { options with point := (read? text).getD options.point }
  | flag f => f.set options

end Setting

namespace Options

/-- The arguments of the expression, which may look like an option. -/
def trailing (options : Options) : List String := options.expression.elim [] fun e => ["--", e]

end Options

namespace Scan

variable {scan scan' settled : Scan} {setting : Setting} {text : String}

/-! ## What the arguments of a setting do -/

/-- The options after further arguments. -/
def finish (scan : Scan) (arguments : List String) : Except ArgumentError Options := do
  let scan ← arguments.foldlM argument scan
  return (← scan.settle).options

theorem finish_cons (scan : Scan) (a : String) (rest : List String) :
    scan.finish (a :: rest) = scan.argument a >>= fun scan => scan.finish rest := by
  rw [finish, List.foldlM_cons, bind_assoc]
  rfl

theorem finish_cons_of_error {a : String} {e : ArgumentError} (h : scan.argument a = .error e)
    (rest : List String) : scan.finish (a :: rest) = .error e := by
  rw [finish_cons, h]
  rfl

theorem finish_cons_of_ok {a : String} (h : scan.argument a = .ok scan') (rest : List String) :
    scan.finish (a :: rest) = scan'.finish rest := by
  rw [finish_cons, h]
  rfl

theorem argument_flag (h : ¬ scan.trailing) (f : Flag) :
    scan.argument ("--" ++ f.name) = scan.flag f := by
  rw [argument, if_neg h]
  cases f <;> rfl

theorem argument_at (h : ¬ scan.trailing) :
    scan.argument "--at" = scan.settle.map fun scan => { scan with unsettled := .missing } := by
  rw [argument, if_neg h]
  change scan.settle.bind _ = _
  cases scan.settle <;> rfl

theorem argument_at_value (h : ¬ scan.trailing) (text : String) :
    scan.argument ("--at=" ++ text) = scan.settle >>= fun scan => scan.setPoint text := by
  have hlist : ("--at=" ++ text).toList = '-' :: '-' :: 'a' :: 't' :: '=' :: text.toList := by
    rw [String.toList_append]
    rfl
  rw [argument, if_neg h, hlist]
  change scan.long (String.ofList ['a', 't']) (some (String.ofList text.toList)) = _
  rw [String.ofList_toList]
  rfl

theorem isPlainNumber_minus (cs : List Char) : isPlainNumber ('-' :: cs) = false := by
  have hwhole : (Numeral.scan ('-' :: cs)).1.whole = [] := rfl
  simp [isPlainNumber, hwhole]

theorem argument_value (h : ¬ scan.trailing) (hmissing : scan.unsettled = .missing)
    (hvalue : Setting.isValue text) :
    scan.argument text = .ok { scan with unsettled := .value text } := by
  have hplain : scan.plain text = .ok { scan with unsettled := .value text } := if_pos hmissing
  rw [Setting.isValue] at hvalue
  rw [argument, if_neg h]
  split
  · next hlist =>
    rw [hlist] at hvalue
    cases (isPlainNumber_minus _).symm.trans hvalue
  · next hlist =>
    rw [hlist] at hvalue
    cases (isPlainNumber_minus _).symm.trans hvalue
  · next hlist =>
    rw [hlist] at hvalue
    rw [if_pos ⟨hmissing, hvalue⟩, hplain]
  · exact hplain

/-! ## A missing value -/

section Missing

variable (hmissing : scan.unsettled = .missing)
include hmissing

theorem settle_of_missing : scan.settle = .error .invalidValue := by
  rw [settle, hmissing]

/-- Behind `--`, a missing value cannot come any more. -/
theorem finish_of_trailing (h : scan.trailing) (rest : List String) :
    ∃ error, scan.finish rest = .error error := by
  have hsettle := settle_of_missing hmissing
  cases rest with
  | nil =>
    refine ⟨.invalidValue, ?_⟩
    change scan.settle >>= _ = _
    rw [hsettle]
    rfl
  | cons a rest =>
    by_cases hexpression : scan.options.expression.isSome
    · refine ⟨.unknownArgument, finish_cons_of_error ?_ rest⟩
      rw [argument, if_pos h, positional, if_pos hexpression]
    · refine ⟨.invalidValue, finish_cons_of_error ?_ rest⟩
      rw [argument, if_pos h, positional, if_neg hexpression, hsettle]
      rfl

theorem exists_long_eq_error (name : String) (value : Option String) :
    ∃ error, scan.long name value = .error error := by
  have hsettle := settle_of_missing hmissing
  rw [long.eq_def]
  split
  case h_1 | h_4 | h_6 => exact ⟨_, rfl⟩
  case h_2 | h_3 | h_7 => exact ⟨.invalidValue, by rw [hsettle]; rfl⟩
  case h_5 => exact ⟨.invalidValue, by rw [flag, hsettle]; rfl⟩

theorem exists_short_eq_error (letter : Char) : ∃ error, scan.short letter = .error error := by
  have hsettle := settle_of_missing hmissing
  rw [short.eq_def]
  split
  case h_1 | h_2 => exact ⟨.invalidValue, by rw [hsettle]; rfl⟩
  case h_3 => exact ⟨_, rfl⟩

/-- What looks like an option is no value. -/
theorem finish_of_not_isValue (h : ¬ scan.trailing) (hvalue : ¬ Setting.isValue text)
    (rest : List String) : ∃ error, scan.finish (text :: rest) = .error error := by
  have herror {result : Except ArgumentError Scan} (hresult : ∃ error, result = .error error)
      (hargument : scan.argument text = result) :
      ∃ error, scan.finish (text :: rest) = .error error := by
    obtain ⟨e, rfl⟩ := hresult
    exact ⟨e, finish_cons_of_error hargument rest⟩
  rw [Setting.isValue] at hvalue
  have hargument : scan.argument text = _ := if_neg h
  split at hargument
  · rw [finish_cons_of_ok hargument]
    exact finish_of_trailing (by exact hmissing) rfl rest
  · exact herror (exists_long_eq_error hmissing _ _) hargument
  · next hlist =>
    rw [hlist] at hvalue
    rw [if_neg fun hplain => hvalue hplain.2] at hargument
    exact herror (exists_short_eq_error hmissing _) hargument
  · next hother =>
    split at hvalue
    · next hlist => exact (hother _ _ hlist).elim
    · exact absurd rfl hvalue

end Missing

/-! ## Settled and unsettled scans -/

/-- Nothing is announced, and no expression has come. -/
structure Settled (scan : Scan) : Prop where
  trailing : ¬ scan.trailing
  expression : scan.options.expression = none
  unsettled : scan.unsettled = .nothing

/-- A value may be announced and there, but none is missing, and no expression has come. -/
structure Ready (scan : Scan) : Prop where
  trailing : ¬ scan.trailing
  expression : scan.options.expression = none
  unsettled : scan.unsettled ≠ .missing

theorem Settled.ready (h : Settled scan) : Ready scan :=
  ⟨h.trailing, h.expression, by rw [h.unsettled]; decide⟩

theorem Settled.settle (h : Settled scan) : scan.settle = .ok scan := by
  rw [Scan.settle, h.unsettled]

theorem setPoint_eq_ok_iff : scan.setPoint text = .ok scan' ↔
    ¬ scan.pointGiven ∧ ∃ x, read? text = some x ∧
      scan' = { scan with pointGiven := true, options.point := x } := by
  rw [setPoint]
  split_ifs with hgiven
  · simp [hgiven]
  · split
    · next hread => simp [hread]
    · next x hread => simp [hgiven, hread, eq_comm]

theorem Settled.of_setPoint (h : Settled scan) (hset : scan.setPoint text = .ok scan') :
    Settled scan' := by
  obtain ⟨-, x, -, rfl⟩ := setPoint_eq_ok_iff.1 hset
  exact ⟨h.trailing, h.expression, h.unsettled⟩

theorem Settled.of_flag {f : Flag} (h : Settled scan) (hset : scan.flag f = .ok scan') :
    Settled scan' := by
  rw [flag, h.settle] at hset
  change (if f.isSet scan.options then _ else _) = _ at hset
  split_ifs at hset
  cases hset
  refine ⟨h.trailing, ?_, h.unsettled⟩
  cases f <;> exact h.expression

theorem Ready.settled_of_settle (h : Ready scan) (hsettle : scan.settle = .ok settled) :
    Settled settled := by
  rw [settle] at hsettle
  split at hsettle
  · next hnothing =>
    cases hsettle
    exact ⟨h.trailing, h.expression, hnothing⟩
  · cases hsettle
  · exact Settled.of_setPoint (by exact ⟨h.trailing, h.expression, rfl⟩) hsettle

/-- What a setting does to a settled scan. -/
def apply (scan : Scan) : Setting → Option Scan
  | .point joined text =>
    if joined = false → Setting.isValue text then (scan.setPoint text).toOption else none
  | .flag f => (scan.flag f).toOption

/-- The arguments lead to a scan that is settled as given, or are refused whatever follows. -/
def Reads (scan : Scan) (arguments : List String) (result : Option Scan) : Prop :=
  (result = none ∧ ∀ rest, ∃ error, scan.finish (arguments ++ rest) = .error error) ∨
    ∃ scan', Ready scan' ∧ scan'.settle.toOption = result ∧
      ∀ rest, scan.finish (arguments ++ rest) = scan'.finish rest

theorem reads_of_argument {a : String} {result : Except ArgumentError Scan}
    (h : scan.argument a = result) (hsettled : ∀ scan', result = .ok scan' → Settled scan') :
    Reads scan [a] result.toOption := by
  cases result with
  | error e => exact .inl ⟨rfl, fun rest => ⟨e, finish_cons_of_error h rest⟩⟩
  | ok scan' =>
    have hscan' := hsettled scan' rfl
    refine .inr ⟨scan', hscan'.ready, ?_, fun rest => finish_cons_of_ok h rest⟩
    rw [hscan'.settle]

/-- Whatever option comes next, the value announced is settled first. -/
theorem finish_arguments_of_settle_eq_error {e : ArgumentError} (h : ¬ scan.trailing)
    (hsettle : scan.settle = .error e) (setting : Setting) (rest : List String) :
    scan.finish (setting.arguments ++ rest) = .error e := by
  rcases setting with ⟨_ | _, text⟩ | f
  · exact finish_cons_of_error (by rw [argument_at h, hsettle]; rfl) _
  · exact finish_cons_of_error (by rw [argument_at_value h, hsettle]; rfl) _
  · exact finish_cons_of_error (by rw [argument_flag h, flag, hsettle]; rfl) _

/-- The arguments of a setting do to what is settled what the setting says. -/
theorem reads_arguments (h : Ready scan) (setting : Setting) :
    Reads scan setting.arguments (scan.settle.toOption.bind (apply · setting)) := by
  -- A value still to be settled comes first, and its error is that of all that follows.
  cases hsettle : scan.settle with
  | error e =>
    exact .inl ⟨rfl, fun rest =>
      ⟨e, finish_arguments_of_settle_eq_error h.trailing hsettle setting rest⟩⟩
  | ok settled =>
    have hsettled := h.settled_of_settle hsettle
    change Reads scan setting.arguments (apply settled setting)
    rcases setting with ⟨_ | _, text⟩ | f
    · have hat : scan.argument "--at" = .ok { settled with unsettled := .missing } := by
        rw [argument_at h.trailing, hsettle]
        rfl
      -- Behind `--at`, an argument that cannot be its value leaves the option without one.
      by_cases hvalue : Setting.isValue text
      · have hargument : { settled with unsettled := .missing }.argument text =
            .ok { settled with unsettled := .value text } :=
          argument_value (by exact hsettled.trailing) rfl hvalue
        refine .inr ⟨{ settled with unsettled := .value text },
          ⟨hsettled.trailing, hsettled.expression, nofun⟩, ?_, fun rest => ?_⟩
        · have hnothing : { settled with unsettled := .nothing } = settled := by
            rw [← hsettled.unsettled]
          rw [settle, apply, if_pos fun _ => hvalue, hnothing]
        · exact (finish_cons_of_ok hat _).trans (finish_cons_of_ok hargument rest)
      · refine .inl ⟨if_neg fun h => hvalue (h rfl), fun rest => ?_⟩
        exact (finish_cons_of_ok hat _).symm ▸
          finish_of_not_isValue rfl (by exact hsettled.trailing) hvalue rest
    · refine reads_of_argument ?_ fun scan' => hsettled.of_setPoint
      rw [argument_at_value h.trailing, hsettle]
      rfl
    · refine reads_of_argument ?_ fun scan' => hsettled.of_flag
      rw [argument_flag h.trailing, flag, flag, hsettle, hsettled.settle]

/-- The arguments of settings do to what is settled what the settings say. -/
theorem reads_flatMap_arguments (h : Ready scan) (settings : List Setting) :
    Reads scan (settings.flatMap Setting.arguments)
      (scan.settle.toOption.bind (settings.foldlM apply)) := by
  induction settings generalizing scan with
  | nil => exact .inr ⟨scan, h, (Option.bind_fun_some _).symm, fun rest => rfl⟩
  | cons setting settings ih =>
    have hresult : scan.settle.toOption.bind ((setting :: settings).foldlM apply) =
        (scan.settle.toOption.bind (apply · setting)).bind (settings.foldlM apply) := by
      rw [Option.bind_assoc]
      rfl
    rw [hresult, List.flatMap_cons]
    rcases reads_arguments h setting with ⟨hnone, hrefused⟩ | ⟨next, hnext, hsettle, hfinish⟩
    · refine .inl ⟨by rw [hnone, Option.bind_none], fun rest => ?_⟩
      rw [List.append_assoc]
      exact hrefused _
    · rw [← hsettle]
      rcases ih hnext with ⟨hnone, hrefused⟩ | ⟨last, hlast, hresult, hfinish'⟩
      · refine .inl ⟨hnone, fun rest => ?_⟩
        rw [List.append_assoc, hfinish]
        exact hrefused rest
      · refine .inr ⟨last, hlast, hresult, fun rest => ?_⟩
        rw [List.append_assoc, hfinish, hfinish']

theorem setPoint_trailing (scan : Scan) (text : String) :
    { scan with trailing := true }.setPoint text =
      (scan.setPoint text).map fun scan => { scan with trailing := true } := by
  rw [setPoint, setPoint]
  split_ifs
  · rfl
  · cases read? text <;> rfl

theorem settle_trailing (scan : Scan) : { scan with trailing := true }.settle =
    scan.settle.map fun scan => { scan with trailing := true } := by
  obtain ⟨options, pointGiven, unsettled, trailing⟩ := scan
  cases unsettled with
  | nothing => rfl
  | missing => rfl
  | value text => exact setPoint_trailing ⟨options, pointGiven, .nothing, trailing⟩ text

/-- The arguments end with those of the expression. -/
theorem finish_trailing (h : Ready scan) (options : Options) :
    (scan.finish options.trailing).toOption =
      scan.settle.toOption.map fun scan =>
        { scan.options with expression := options.expression } := by
  rw [Options.trailing]
  cases options.expression with
  | none =>
    change (scan.settle >>= _).toOption = _
    cases hsettle : scan.settle with
    | error e => rfl
    | ok settled =>
      have hexpression := (h.settled_of_settle hsettle).expression
      change some settled.options = some { settled.options with expression := none }
      rw [← hexpression]
  | some e =>
    have hdashes : scan.argument "--" = .ok { scan with trailing := true } := by
      rw [argument, if_neg h.trailing]
      rfl
    have hexpression : ¬ scan.options.expression.isSome := by
      rw [h.expression]
      decide
    have hargument : { scan with trailing := true }.argument e =
        scan.settle.map fun scan =>
          { scan with trailing := true, options.expression := some e } := by
      rw [argument, if_pos rfl, positional, if_neg hexpression, settle_trailing]
      cases scan.settle <;> rfl
    change (scan.finish ["--", e]).toOption = _
    rw [finish_cons_of_ok hdashes, finish_cons, hargument]
    cases hsettle : scan.settle with
    | error e => rfl
    | ok settled =>
      have hnothing := (h.settled_of_settle hsettle).unsettled
      obtain ⟨options, pointGiven, unsettled, trailing⟩ := settled
      obtain rfl : unsettled = .nothing := hnothing
      rfl

end Scan

end Derivatives
