import Derivatives.Proofs.Options
import Mathlib.Data.List.Nodup

/-!
# Settings for every options

Settings are accepted if each is a valid one of another option
(`Scan.foldlM_apply_eq_some_iff`). Those of options with a finite value of the variable
(`Options.settings`) are, and give the options: the text of a double is a number, and behind a
minus sign it is plain (`Setting.isValue_display`). So the options can be written as arguments in
any order, with the expression behind `--`, and not with an option that is there twice
(`Options.ofArguments_settings`).
-/

namespace Derivatives

open Number

namespace Scan

variable {scan scan' : Scan} {setting : Setting}

/-! ## What settings do -/

/-- Whether an option has been given. -/
def Has (scan : Scan) : LongOption → Prop
  | .point => scan.pointGiven
  | .flag f => f.isSet scan.options
  | .display _ => False

/-- A scan with a setting. -/
def give (scan : Scan) (setting : Setting) : Scan :=
  { scan with
    options := setting.set scan.options
    pointGiven := scan.pointGiven || setting.option = .point }

theorem Settled.give (h : Settled scan) (setting : Setting) : Settled (scan.give setting) := by
  refine ⟨h.trailing, ?_, h.unsettled⟩
  rcases setting with _ | ⟨_ | _ | _⟩ <;> exact h.expression

/-- A valid setting of an option that has not been given is accepted, and nothing else is. -/
theorem apply_eq_some_iff (h : Settled scan) : apply scan setting = some scan' ↔
    (setting.Valid ∧ ¬ scan.Has setting.option) ∧ scan.give setting = scan' := by
  cases setting with
  | point joined text =>
    -- A point can be refused for its value, where it is an argument of its own, or as a second one.
    have hpoint : (scan.setPoint text).toOption = some scan' ↔
        (read? text).isSome ∧ ¬ scan.pointGiven ∧ scan.give (.point joined text) = scan' := by
      rw [setPoint]
      by_cases hgiven : scan.pointGiven
      · simp [hgiven, Except.toOption]
      · cases hread : read? text <;>
          simp [hgiven, hread, Except.toOption, give, Setting.option, Setting.set]
    rw [apply, Setting.Valid]
    by_cases hvalue : joined = false → Setting.isValue text
    · rw [if_pos hvalue, hpoint, and_iff_right hvalue, and_assoc]
      rfl
    · rw [if_neg hvalue]
      exact iff_of_false (Option.some_ne_none _).symm fun h => hvalue h.1.1.1
  | flag f =>
    have hflag : apply scan (.flag f) =
        if f.isSet scan.options then none
        else some { scan with options := f.set scan.options } := by
      rw [apply, flag, h.settle]
      change (if f.isSet scan.options then _ else _ : Except ArgumentError Scan).toOption = _
      split_ifs <;> rfl
    have hgive : scan.give (.flag f) = { scan with options := f.set scan.options } := by
      rw [Scan.give]
      simp [Setting.option, Setting.set]
    rw [hflag, hgive]
    split_ifs with hset
    · simp [Setting.option, Has, hset]
    · simp [Setting.option, Has, hset, Setting.Valid]

theorem isSet_set (options : Options) (f g : Flag) :
    g.isSet (f.set options) ↔ g = f ∨ g.isSet options := by
  cases f <;> cases g <;> simp [Flag.isSet, Flag.set]

theorem has_give (scan : Scan) (setting : Setting) (option : LongOption) :
    (scan.give setting).Has option ↔ option = setting.option ∨ scan.Has option := by
  rcases setting with ⟨joined, text⟩ | f
  · rcases option with _ | g | e
    · simp [give, Has, Setting.option]
    · cases g <;> simp [give, Has, Setting.option, Setting.set, Flag.isSet]
    · simp [Has, Setting.option]
  · rcases option with _ | g | e
    · simp [give, Has, Setting.option]
    · simp [give, Has, Setting.option, Setting.set, isSet_set]
    · simp [Has, Setting.option]

theorem foldlM_apply_cons (h : Settled scan) (settings : List Setting) :
    (setting :: settings).foldlM apply scan = some scan' ↔
      (setting.Valid ∧ ¬ scan.Has setting.option) ∧
        settings.foldlM apply (scan.give setting) = some scan' := by
  rw [List.foldlM_cons, Option.bind_eq_bind, Option.bind_eq_some_iff]
  constructor
  · rintro ⟨next, hnext, hfold⟩
    obtain ⟨hsetting, rfl⟩ := (apply_eq_some_iff h).1 hnext
    exact ⟨hsetting, hfold⟩
  · rintro ⟨hsetting, hfold⟩
    exact ⟨_, (apply_eq_some_iff h).2 ⟨hsetting, rfl⟩, hfold⟩

theorem settled_empty : Settled {} := ⟨Bool.false_ne_true, rfl, rfl⟩

theorem not_has_empty (option : LongOption) : ¬ ({} : Scan).Has option := by
  rcases option with _ | f | e
  · exact Bool.false_ne_true
  · cases f <;> exact Bool.false_ne_true
  · exact id

/-- Settings are accepted if each is a valid one of another option. -/
theorem foldlM_apply_eq_some_iff (h : Settled scan) (settings : List Setting) :
    settings.foldlM apply scan = some scan' ↔
      ((settings.map Setting.option).Nodup ∧
        ∀ setting ∈ settings, setting.Valid ∧ ¬ scan.Has setting.option) ∧
      settings.foldl give scan = scan' := by
  induction settings generalizing scan with
  | nil => simp [pure]
  | cons setting settings ih =>
    rw [foldlM_apply_cons h, ih (h.give setting), List.map_cons, List.nodup_cons,
      List.forall_mem_cons, List.foldl_cons]
    simp only [has_give, not_or, List.mem_map, not_exists, not_and]
    constructor
    · rintro ⟨hsetting, ⟨hnodup, hsettings⟩, hresult⟩
      exact ⟨⟨⟨fun s hs => (hsettings s hs).2.1, hnodup⟩, hsetting,
        fun s hs => ⟨(hsettings s hs).1, (hsettings s hs).2.2⟩⟩, hresult⟩
    · rintro ⟨⟨⟨hnew, hnodup⟩, hsetting, hsettings⟩, hresult⟩
      exact ⟨hsetting, ⟨hnodup, fun s hs => ⟨(hsettings s hs).1, hnew s hs, (hsettings s hs).2⟩⟩,
        hresult⟩

theorem options_foldl_give (scan : Scan) (settings : List Setting) :
    (settings.foldl give scan).options = settings.foldl Setting.set scan.options := by
  induction settings generalizing scan with
  | nil => rfl
  | cons setting settings ih => exact ih (scan.give setting)

end Scan

/-! ## The settings of options -/

namespace Setting

theorem set_right_comm {s t : Setting} (h : s.option ≠ t.option) (options : Options) :
    set (set options s) t = set (set options t) s := by
  rcases s with _ | f <;> rcases t with _ | g
  · exact absurd rfl h
  · cases g <;> rfl
  · cases f <;> rfl
  · cases f <;> cases g <;> rfl

/-- The text of a finite double can be a value in an argument of its own: behind its minus
    sign it is plain. -/
theorem isValue_display {x : Float} (hx : magnitude x < infinite) : isValue (display x) := by
  obtain ⟨n, htext, hn, hexponent, -⟩ := exists_display_eq_sign_append hx
  have hplain : Scan.isPlainNumber n.text := by
    have hscan := Numeral.scan_text_append hn.toWellFormed Numeral.stops_nil
    rw [List.append_nil] at hscan
    simp [Scan.isPlainNumber, hscan, hexponent, hn.whole_ne_nil]
  rw [isValue]
  split
  · next c cs hlist =>
    rw [htext, signText] at hlist
    split_ifs at hlist
    · rwa [← List.cons.inj hlist |>.2]
    · have hsign := scanSign_text hn.toWellFormed
      have hminus : n.text = '-' :: c :: cs := hlist
      rw [hminus] at hsign
      cases hsign
  · rfl

/-- Arguments are parted between two settings or within one. -/
theorem exists_of_flatMap_arguments_eq_append {settings : List Setting}
    {before after : List String} (h : settings.flatMap arguments = before ++ after) :
    (∃ first last, settings = first ++ last ∧ before = first.flatMap arguments ∧
        after = last.flatMap arguments) ∨
      ∃ first : List Setting, before = first.flatMap arguments ++ ["--at"] := by
  induction settings generalizing before with
  | nil =>
    obtain ⟨rfl, rfl⟩ := List.append_eq_nil_iff.1 h.symm
    exact .inl ⟨[], [], rfl, rfl, rfl⟩
  | cons s settings ih =>
    rw [List.flatMap_cons] at h
    rcases List.append_eq_append_iff.1 h with ⟨before, rfl, hrest⟩ | ⟨between, hs, rfl⟩
    · rcases ih hrest with ⟨first, last, rfl, rfl, rfl⟩ | ⟨first, rfl⟩
      · exact .inl ⟨s :: first, last, rfl, rfl, rfl⟩
      · exact .inr ⟨s :: first, by rw [List.flatMap_cons, List.append_assoc]⟩
    · rcases before with _ | ⟨a, before⟩
      · obtain rfl : s.arguments = between := hs
        exact .inl ⟨[], s :: settings, rfl, rfl, rfl⟩
      rcases between with _ | ⟨b, between⟩
      · rw [List.append_nil] at hs
        exact .inl ⟨[s], settings, rfl, by rw [List.flatMap_singleton, hs], rfl⟩
      -- Only the arguments of a value of its own can be parted.
      rcases s with ⟨_ | _, text⟩ | f
      · have htext := (List.cons.inj hs).2
        cases before with
        | nil =>
          obtain ⟨rfl, -⟩ := List.cons.inj hs
          exact .inr ⟨[], rfl⟩
        | cons c before => cases before <;> cases (List.cons.inj htext).2
      · cases before <;> cases (List.cons.inj hs).2
      · cases before <;> cases (List.cons.inj hs).2

end Setting

namespace Options

/-- The settings that options consist of, apart from the expression. -/
def settings (options : Options) (joined : Bool) : List Setting :=
  .point joined (display options.point) ::
    ([.listExpression, .evaluate, .json].filter (Scan.Flag.isSet options)).map .flag

variable {options : Options} {joined : Bool}

theorem nodup_settings (options : Options) (joined : Bool) :
    ((options.settings joined).map Setting.option).Nodup := by
  rw [settings, List.map_cons, List.map_map, List.nodup_cons]
  constructor
  · simp [Setting.option]
  · exact (List.Nodup.filter _ (by decide)).map fun f g h => by cases h; rfl

theorem valid_of_mem_settings (hpoint : magnitude options.point < infinite) {setting : Setting}
    (hs : setting ∈ options.settings joined) : setting.Valid := by
  rcases List.mem_cons.1 hs with rfl | hs
  · exact ⟨fun _ => Setting.isValue_display hpoint, by rw [read?_display hpoint]; rfl⟩
  · obtain ⟨f, -, rfl⟩ := List.mem_map.1 hs
    trivial

theorem foldl_set_settings (hpoint : magnitude options.point < infinite) :
    (options.settings joined).foldl Setting.set {} = { options with expression := none } := by
  rw [settings, List.foldl_cons, Setting.set, read?_display hpoint]
  obtain ⟨expression, point, listExpression, evaluate, json⟩ := options
  cases listExpression <;> cases evaluate <;> cases json <;> rfl

/-- In any order, the settings of options give them. -/
theorem foldl_set_perm (hpoint : magnitude options.point < infinite) {settings : List Setting}
    (hperm : settings.Perm (options.settings joined)) :
    settings.foldl Setting.set {} = { options with expression := none } := by
  refine Eq.trans (hperm.foldl_eq' (fun s hs t ht z => ?_) _) (foldl_set_settings hpoint)
  by_cases hoption : s.option = t.option
  · rw [List.inj_on_of_nodup_map (nodup_settings options joined) (hperm.mem_iff.1 hs)
      (hperm.mem_iff.1 ht) hoption]
  · exact Setting.set_right_comm hoption z

theorem exists_eq_error_of_toOption_eq_none {result : Except ArgumentError Options}
    (h : result.toOption = none) : ∃ error, result = .error error := by
  cases result with
  | error e => exact ⟨e, rfl⟩
  | ok options => cases h

theorem toOption_ofArguments (settings : List Setting) (options : Options) :
    (ofArguments (settings.flatMap Setting.arguments ++ options.trailing)).toOption =
      (settings.foldlM Scan.apply {}).map fun scan =>
        { scan.options with expression := options.expression } := by
  change (Scan.finish {} _).toOption = _
  rcases Scan.reads_flatMap_arguments Scan.settled_empty.ready settings with
    ⟨hnone, hrefused⟩ | ⟨last, hlast, hsettle, hfinish⟩
  · obtain ⟨e, he⟩ := hrefused options.trailing
    have hfold : settings.foldlM Scan.apply {} = none := hnone
    rw [he, hfold]
    rfl
  · rw [hfinish, Scan.finish_trailing hlast, hsettle]
    rfl

/-- The settings of options in any order give them. -/
theorem ofArguments_perm {settings : List Setting} (hpoint : magnitude options.point < infinite)
    (hperm : settings.Perm (options.settings joined)) :
    ofArguments (settings.flatMap Setting.arguments ++ options.trailing) = .ok options := by
  have hnodup : (settings.map Setting.option).Nodup :=
    (hperm.map Setting.option).nodup_iff.2 (nodup_settings options joined)
  have hvalid : ∀ s ∈ settings, s.Valid ∧ ¬ ({} : Scan).Has s.option := fun s hs =>
    ⟨valid_of_mem_settings hpoint (hperm.mem_iff.1 hs), Scan.not_has_empty s.option⟩
  have hfold : settings.foldlM Scan.apply {} = some (settings.foldl Scan.give {}) :=
    (Scan.foldlM_apply_eq_some_iff Scan.settled_empty settings).2 ⟨⟨hnodup, hvalid⟩, rfl⟩
  have hresult := toOption_ofArguments settings options
  rw [hfold, Option.map_some, Scan.options_foldl_give, foldl_set_perm hpoint hperm] at hresult
  cases hok : ofArguments (settings.flatMap Setting.arguments ++ options.trailing) with
  | error e =>
    rw [hok] at hresult
    cases hresult
  | ok given =>
    rw [hok] at hresult
    exact congrArg _ (Option.some.inj hresult)

/-- With settings of an option that is there already, arguments are refused. -/
theorem exists_ofArguments_eq_error {first last : List Setting} {setting : Setting}
    (h : setting.option ∈ (first ++ last).map Setting.option) (options : Options) :
    ∃ error, ofArguments ((first ++ setting :: last).flatMap Setting.arguments ++
      options.trailing) = .error error := by
  refine exists_eq_error_of_toOption_eq_none ?_
  rw [toOption_ofArguments, Option.map_eq_none_iff, Option.eq_none_iff_forall_ne_some]
  intro scan hscan
  have hnodup := ((Scan.foldlM_apply_eq_some_iff Scan.settled_empty _).1 hscan).1.1
  rw [List.map_append, List.map_cons, List.nodup_middle, List.nodup_cons, ← List.map_append]
    at hnodup
  exact hnodup.1 h

/-- A value that has been announced has to come next. -/
theorem exists_ofArguments_at_eq_error (first : List Setting) (setting : Setting)
    (rest : List String) :
    ∃ error, ofArguments (first.flatMap Setting.arguments ++
      "--at" :: (setting.arguments ++ rest)) = .error error := by
  change ∃ error, Scan.finish {} _ = .error error
  rcases Scan.reads_flatMap_arguments Scan.settled_empty.ready first with
    ⟨-, hrefused⟩ | ⟨last, hlast, -, hfinish⟩
  · exact hrefused _
  · have hat := Scan.argument_at hlast.trailing
    rw [hfinish]
    cases hsettle : last.settle with
    | error e =>
      rw [hsettle] at hat
      exact ⟨e, Scan.finish_cons_of_error hat _⟩
    | ok settled =>
      rw [hsettle] at hat
      rw [Scan.finish_cons_of_ok hat]
      exact ⟨_, Scan.finish_arguments_of_settle_eq_error
        (by exact (hlast.settled_of_settle hsettle).trailing) (Scan.settle_of_missing rfl) _ _⟩

/-- Options are given by their settings in any order, and by no arguments that set one of them
    twice. -/
theorem ofArguments_settings {settings : List Setting}
    (hpoint : magnitude options.point < infinite)
    (hperm : settings.Perm (options.settings joined)) :
    ofArguments (settings.flatMap Setting.arguments ++ options.trailing) = .ok options ∧
      ∀ before after, settings.flatMap Setting.arguments = before ++ after →
        ∀ setting : Setting, setting.option ∈ settings.map Setting.option →
          ∃ error, ofArguments (before ++ setting.arguments ++ after ++ options.trailing) =
            .error error := by
  refine ⟨ofArguments_perm hpoint hperm, fun before after hsplit setting hmem => ?_⟩
  rcases Setting.exists_of_flatMap_arguments_eq_append hsplit with
    ⟨first, last, rfl, rfl, rfl⟩ | ⟨first, rfl⟩
  · obtain ⟨e, he⟩ := exists_ofArguments_eq_error hmem options
    rw [List.flatMap_append, List.flatMap_cons] at he
    exact ⟨e, by simpa only [List.append_assoc] using he⟩
  · obtain ⟨e, he⟩ :=
      exists_ofArguments_at_eq_error first setting (after ++ options.trailing)
    exact ⟨e, by simpa only [List.append_assoc, List.cons_append, List.nil_append] using he⟩

/-- A negative value in an argument of its own, an expression that looks like an option, and
    arguments with a second value in between. -/
theorem ofArguments_json_at_evaluate :
    magnitude (-2.5) < infinite ∧
      [.flag .json, .point false "-2.5", .flag .evaluate].Perm
        (settings ⟨some "-x", -2.5, false, true, true⟩ false) ∧
      ofArguments ["--json", "--at", "-2.5", "--evaluate", "--", "-x"] =
        .ok ⟨some "-x", -2.5, false, true, true⟩ ∧
      ∃ error, ofArguments ["--json", "--at", "--at=1", "-2.5", "--evaluate", "--", "-x"] =
        .error error := by
  have hpoint : magnitude (-2.5) < infinite := by decide +kernel
  have hdisplay : display (-2.5) = "-2.5" := by decide +kernel
  have hperm : [.flag .json, .point false "-2.5", .flag .evaluate].Perm
      (settings ⟨some "-x", -2.5, false, true, true⟩ false) := by
    rw [settings, hdisplay]
    decide
  obtain ⟨hok, herror⟩ := ofArguments_settings hpoint hperm
  exact ⟨hpoint, hperm, hok,
    herror ["--json", "--at"] ["-2.5", "--evaluate"] rfl (.point true "1") (by decide)⟩

end Options

end Derivatives
