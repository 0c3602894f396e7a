import Mathlib.Tactic.Common
import MacroAsm.Config

/-!
# The command line before the environment

Each variable of the environment stands in for options of the command line. Where such an option is given, the variable
has to make sense, and beyond that its value does not matter.

* `Arguments.overrides a`: the variables for which `a` gives an option;
* `Defaults.SameFor a d d'`: two environments say the same as far as `a` lets them;
* `Config.ofDefaults_congr`: then the configuration is the same;
* `Config.Follows a c`: what `a` gives is what `c` uses; `Config.follows_of_ofDefaults`;
* `Config.Valid c`: what every configuration satisfies; `Config.valid_of_ofDefaults`;
* `ofArguments_overrides`: all of these for arguments and the variables by their names.
-/

namespace MacroAsm

/-- The environment in which variables have the given values. -/
def Environment.ofVariables (vars : String → Option Text) : Environment := Id.run (gather vars)

/-- The variables that options on the command line stand before. -/
def Arguments.overrides (a : Arguments) : List String :=
  (if a.rootMacro.isSome then ["STACKFORGE_MACRO"] else [])
    ++ (if a.maxDepth.isSome then ["STACKFORGE_MAX_DEPTH"] else [])
    ++ (if a.errorFile.isSome || a.noError then ["STACKFORGE_ERROR_FILE"] else [])
    ++ (if a.quiet then ["STACKFORGE_QUIET"] else [])
    ++ (if a.noWarn || a.warnError then ["STACKFORGE_NO_WARN", "STACKFORGE_WERROR"] else [])

/-! ## two environments -/

/-- Two environments say the same, but for what options on the command line stand before. -/
structure Defaults.SameFor (a : Arguments) (d d' : Defaults) : Prop where
  includePaths : d.includePaths = d'.includePaths
  rootMacro : a.rootMacro = none → d.rootMacro = d'.rootMacro
  maxDepth : a.maxDepth = none → d.maxDepth = d'.maxDepth
  quiet : a.quiet = false → d.quiet = d'.quiet
  noWarn : a.noWarn = false → a.warnError = false → d.noWarn = d'.noWarn
  warnError : a.noWarn = false → a.warnError = false → d.warnError = d'.warnError
  errorFile : a.errorFile = none → a.noError = false → d.errorFile = d'.errorFile

namespace Config

section Congr

variable {a : Arguments} {d d' : Defaults}

lemma or_congr_of_none {α : Type} {x y y' : Option α} (h : x = none → y = y') : x.or y = x.or y' := by
  cases x with
  | none => rw [h rfl]
  | some v => rfl

lemma hidesWarnings_congr (h : Defaults.SameFor a d d') : hidesWarnings a d = hidesWarnings a d' := by
  unfold hidesWarnings
  cases hn : a.noWarn with
  | true => rfl
  | false =>
    cases hw : a.warnError with
    | true => rfl
    | false => rw [h.noWarn hn hw]

/-- Warnings that an option keeps back are no errors, whatever the environment says about that. -/
lemma warningsAsErrors_congr (h : Defaults.SameFor a d d') :
    (a.warnError || (!hidesWarnings a d && d.warnError.getD false)) =
      (a.warnError || (!hidesWarnings a d' && d'.warnError.getD false)) := by
  rw [hidesWarnings_congr h]
  cases hw : a.warnError with
  | true => rfl
  | false =>
    cases hn : a.noWarn with
    | true => simp [hidesWarnings, hn]
    | false => rw [h.warnError hn hw]

lemma sinkOf_congr (h : Defaults.SameFor a d d') : sinkOf a d = sinkOf a d' := by
  unfold sinkOf
  cases hn : a.noError with
  | true => rfl
  | false => rw [or_congr_of_none fun hfile => h.errorFile hfile hn]

lemma quiet_congr (h : Defaults.SameFor a d d') :
    (a.quiet || d.quiet.getD false) = (a.quiet || d'.quiet.getD false) := by
  cases hq : a.quiet with
  | true => rfl
  | false => rw [h.quiet hq]

/-- **What the command line leaves to the environment** is all that the configuration takes from it. -/
theorem ofDefaults_congr (h : Defaults.SameFor a d d') : ofDefaults a d = ofDefaults a d' := by
  simp only [ofDefaults, warningsAsErrors_congr h]
  simp only [or_congr_of_none h.rootMacro, or_congr_of_none h.maxDepth, h.includePaths, quiet_congr h, sinkOf_congr h,
    hidesWarnings_congr h]

end Congr

end Config

/-- What an environment that makes sense says, variable by variable. -/
lemma Defaults.of_ofEnvironment {env : Environment} {d : Defaults} (h : ofEnvironment env = .ok d) :
    Environment.sizeOf "STACKFORGE_MAX_DEPTH" env.maxDepth = .ok d.maxDepth ∧
      Environment.boolOf "STACKFORGE_QUIET" env.quiet = .ok d.quiet ∧
      Environment.boolOf "STACKFORGE_NO_WARN" env.noWarn = .ok d.noWarn ∧
      Environment.boolOf "STACKFORGE_WERROR" env.warnError = .ok d.warnError ∧
      d.rootMacro = Environment.textOf env.rootMacro ∧ d.includePaths = Environment.pathsOf env.includePaths ∧
      d.errorFile = Environment.textOf env.errorFile := by
  obtain ⟨maxDepth, hdepth, h⟩ := ok_of_bind h
  obtain ⟨quiet, hquiet, h⟩ := ok_of_bind h
  obtain ⟨noWarn, hnoWarn, h⟩ := ok_of_bind h
  obtain ⟨warnError, hwarnError, h⟩ := ok_of_bind h
  cases h
  exact ⟨hdepth, hquiet, hnoWarn, hwarnError, rfl, rfl, rfl⟩

/-- Variables that differ only where options stand before them say the same. -/
lemma Defaults.sameFor_of_agree {a : Arguments} {vars vars' : String → Option Text} {d d' : Defaults}
    (hagree : ∀ name, name ∉ a.overrides → vars name = vars' name)
    (h : ofEnvironment (.ofVariables vars) = .ok d) (h' : ofEnvironment (.ofVariables vars') = .ok d') :
    SameFor a d d' := by
  obtain ⟨hdepth, hquiet, hnoWarn, hwarnError, hroot, hpaths, hfile⟩ := of_ofEnvironment h
  obtain ⟨hdepth', hquiet', hnoWarn', hwarnError', hroot', hpaths', hfile'⟩ := of_ofEnvironment h'
  refine ⟨?_, fun hgiven => ?_, fun hgiven => ?_, fun hgiven => ?_, fun hnw hwe => ?_, fun hnw hwe => ?_,
    fun hgiven herr => ?_⟩
  · rw [hpaths, hpaths']
    exact congrArg Environment.pathsOf (hagree "STACKFORGE_INCLUDE_PATHS" (by simp [Arguments.overrides]))
  · rw [hroot, hroot']
    exact congrArg Environment.textOf (hagree "STACKFORGE_MACRO" (by simp [Arguments.overrides, hgiven]))
  · refine Except.ok.inj (hdepth.symm.trans (Eq.trans ?_ hdepth'))
    exact congrArg _ (hagree "STACKFORGE_MAX_DEPTH" (by simp [Arguments.overrides, hgiven]))
  · refine Except.ok.inj (hquiet.symm.trans (Eq.trans ?_ hquiet'))
    exact congrArg _ (hagree "STACKFORGE_QUIET" (by simp [Arguments.overrides, hgiven]))
  · refine Except.ok.inj (hnoWarn.symm.trans (Eq.trans ?_ hnoWarn'))
    exact congrArg _ (hagree "STACKFORGE_NO_WARN" (by simp [Arguments.overrides, hnw, hwe]))
  · refine Except.ok.inj (hwarnError.symm.trans (Eq.trans ?_ hwarnError'))
    exact congrArg _ (hagree "STACKFORGE_WERROR" (by simp [Arguments.overrides, hnw, hwe]))
  · rw [hfile, hfile']
    exact congrArg Environment.textOf (hagree "STACKFORGE_ERROR_FILE" (by simp [Arguments.overrides, hgiven, herr]))

/-! ## every configuration -/

/-- A configuration does what the options that are given say. -/
structure Config.Follows (a : Arguments) (c : Config) : Prop where
  root : ∀ name, a.rootMacro = some name → c.rootMacro = name
  depth : ∀ n, a.maxDepth = some n → c.maxDepth = n
  quiet : a.quiet = true → c.quiet = true
  noWarn : a.noWarn = true → c.emitWarnings = false
  warnError : a.warnError = true → c.warningsAsErrors = true ∧ (a.noWarn = false → c.emitWarnings = true)
  noError : a.noError = true → c.sink = .disabled
  errorFile : ∀ path, a.errorFile = some path → a.noError = false → c.sink = .file path a.errorAppend

/-- Warnings are not both kept back and taken for errors, a macro may be entered, and the root macro has a name. -/
structure Config.Valid (c : Config) : Prop where
  warnings : ¬ (c.emitWarnings = false ∧ c.warningsAsErrors = true)
  depth : 1 ≤ c.maxDepth
  root : c.rootMacro.isWord = true

namespace Config

lemma of_checkRoot {name root : Text} (h : checkRoot name = .ok root) : root = name ∧ root.isWord = true := by
  unfold checkRoot at h
  split at h
  · next hword =>
    cases h
    exact ⟨rfl, hword⟩
  · cases h

lemma of_checkDepth {n depth : Nat} (h : checkDepth n = .ok depth) : depth = n ∧ 1 ≤ depth := by
  unfold checkDepth at h
  split at h
  · cases h
  · next hne =>
    cases h
    exact ⟨rfl, by omega⟩

/-- **A given option is used**, whatever the environment says. -/
theorem follows_of_ofDefaults {a : Arguments} {d : Defaults} {c : Config} (h : ofDefaults a d = .ok c) :
    c.Follows a := by
  obtain ⟨rootMacro, hroot, h⟩ := ok_of_bind h
  obtain ⟨maxDepth, hdepth, h⟩ := ok_of_bind h
  obtain ⟨start, -, h⟩ := ok_of_bind h
  cases h
  constructor
  case root =>
    intro name hname
    rw [hname] at hroot
    exact (of_checkRoot hroot).1
  case depth =>
    intro n hn
    rw [hn] at hdepth
    exact (of_checkDepth hdepth).1
  case quiet =>
    intro hquiet
    simp [hquiet]
  case noWarn =>
    intro hnoWarn
    simp [hidesWarnings, hnoWarn]
  case warnError =>
    intro hwarnError
    refine ⟨by simp [hwarnError], fun hnoWarn => ?_⟩
    simp [hidesWarnings, hwarnError, hnoWarn]
  case noError =>
    intro hnoError
    simp [sinkOf, hnoError]
  case errorFile =>
    intro path hpath hnoError
    simp [sinkOf, hpath, hnoError]

/-- **A configuration is valid** if the command line does not both keep warnings back and make errors of them. -/
theorem valid_of_ofDefaults {a : Arguments} {d : Defaults} {c : Config}
    (ha : ¬ (a.noWarn = true ∧ a.warnError = true)) (h : ofDefaults a d = .ok c) : c.Valid := by
  obtain ⟨rootMacro, hroot, h⟩ := ok_of_bind h
  obtain ⟨maxDepth, hdepth, h⟩ := ok_of_bind h
  obtain ⟨start, -, h⟩ := ok_of_bind h
  cases h
  refine ⟨?_, (of_checkDepth hdepth).2, (of_checkRoot hroot).2⟩
  show ¬ ((!hidesWarnings a d) = false ∧ (a.warnError || (!hidesWarnings a d && d.warnError.getD false)) = true)
  rintro ⟨hhidden, herrors⟩
  -- hidden warnings are errors only by an option, and that option shows them
  have hwarnError : a.warnError = true := by simpa [hhidden] using herrors
  have hnoWarn : a.noWarn = true := by simpa [hidesWarnings, hwarnError] using hhidden
  exact ha ⟨hnoWarn, hwarnError⟩

lemma ofArguments_of_ofEnvironment {a : Arguments} {env : Environment} {d : Defaults}
    (h : Defaults.ofEnvironment env = .ok d) :
    ofArguments a env = (ofDefaults a d).mapError fun cause => ⟨⟨cause, none⟩, []⟩ := by
  rw [ofArguments, h, Except.bind]
  cases ofDefaults a d <;> rfl

lemma exists_of_ofArguments {a : Arguments} {env : Environment} {c : Config} (h : ofArguments a env = .ok c) :
    ∃ d, Defaults.ofEnvironment env = .ok d ∧ ofDefaults a d = .ok c := by
  unfold ofArguments at h
  split at h
  · next c' hc =>
    cases h
    exact ok_of_bind hc
  · cases h

end Config

/-- **The command line before the environment.** Two environments that make sense and differ only in variables for which
the command line gives an option lead to the same configuration or the same failure, and the configuration does what the
given options say. If the command line does not both keep warnings back and make errors of them, which its reader must
see to, the configuration is valid in any environment. -/
theorem ofArguments_overrides :
    (∀ (a : Arguments) (vars vars' : String → Option Text),
      (∀ name, name ∉ a.overrides → vars name = vars' name) →
      (Defaults.ofEnvironment (.ofVariables vars)).isOk = true →
      (Defaults.ofEnvironment (.ofVariables vars')).isOk = true →
      Config.ofArguments a (.ofVariables vars) = Config.ofArguments a (.ofVariables vars')) ∧
    (∀ (a : Arguments) (env : Environment) (c : Config), Config.ofArguments a env = .ok c → c.Follows a) ∧
    ∀ (a : Arguments) (env : Environment) (c : Config), ¬ (a.noWarn = true ∧ a.warnError = true) →
      Config.ofArguments a env = .ok c → c.Valid := by
  refine ⟨?_, fun a env c hc => ?_, fun a env c ha hc => ?_⟩
  · intro a vars vars' hagree hok hok'
    cases hd : Defaults.ofEnvironment (.ofVariables vars) with
    | error cause =>
      rw [hd] at hok
      cases hok
    | ok d =>
      cases hd' : Defaults.ofEnvironment (.ofVariables vars') with
      | error cause =>
        rw [hd'] at hok'
        cases hok'
      | ok d' =>
        have hsame := Config.ofDefaults_congr (Defaults.sameFor_of_agree hagree hd hd')
        rw [Config.ofArguments_of_ofEnvironment hd, Config.ofArguments_of_ofEnvironment hd', hsame]
  · obtain ⟨d, -, hd⟩ := Config.exists_of_ofArguments hc
    exact Config.follows_of_ofDefaults hd
  · obtain ⟨d, -, hd⟩ := Config.exists_of_ofArguments hc
    exact Config.valid_of_ofDefaults ha hd

namespace Sample

/-- A root macro, the usual depth, and warnings as errors. -/
def arguments : Arguments where
  input := "prog.sf".toList
  rootMacro := some "OTHER".toList
  maxDepth := some 256
  warnError := true

/-- Variables that say otherwise about all of these. -/
def contrary (name : String) : Option Text :=
  if name = "STACKFORGE_MACRO" then some "no word".toList
  else if name = "STACKFORGE_MAX_DEPTH" then some "0".toList
  else if name = "STACKFORGE_NO_WARN" then some "on".toList
  else none

end Sample

/-- Variables that would be refused themselves, next to none at all. -/
theorem ofArguments_overrides_contrary :
    ∃ c, Config.ofArguments Sample.arguments (.ofVariables Sample.contrary) = .ok c ∧
      Config.ofArguments Sample.arguments (.ofVariables fun _ => none) = .ok c ∧ c.rootMacro = "OTHER".toList ∧
      c.maxDepth = 256 ∧ c.warningsAsErrors = true ∧ c.emitWarnings = true ∧ c.Valid := by
  have hrun : (Config.ofArguments Sample.arguments (.ofVariables Sample.contrary)).isOk = true := by decide
  have hagree : ∀ name, name ∉ Sample.arguments.overrides → Sample.contrary name = none := by
    intro name hname
    have hlist : Sample.arguments.overrides =
        ["STACKFORGE_MACRO", "STACKFORGE_MAX_DEPTH", "STACKFORGE_NO_WARN", "STACKFORGE_WERROR"] := rfl
    simp only [hlist, List.mem_cons, not_or] at hname
    obtain ⟨hroot, hdepth, hnoWarn, -⟩ := hname
    rw [Sample.contrary, if_neg hroot, if_neg hdepth, if_neg hnoWarn]
  obtain ⟨hsame, hfollows, hvalid⟩ := ofArguments_overrides
  have hsame := hsame Sample.arguments Sample.contrary (fun _ => none) hagree (by decide) (by decide)
  cases hc : Config.ofArguments Sample.arguments (.ofVariables Sample.contrary) with
  | error f =>
    rw [hc] at hrun
    cases hrun
  | ok c =>
    have hgiven := hfollows _ _ _ hc
    obtain ⟨herrors, hshown⟩ := hgiven.warnError rfl
    exact ⟨c, rfl, hsame.symm.trans hc, hgiven.root _ rfl, hgiven.depth _ rfl, herrors, hshown rfl,
      hvalid _ _ _ (by decide) hc⟩

end MacroAsm
