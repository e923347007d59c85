import WiredViews.Policy
import WiredViews.ViewRenderer

namespace WiredViews

inductive Environment where
  | development
  | testing
  | production
deriving DecidableEq

inductive LogLevel where
  | debug
  | info
  | warning
  | error
  | critical
deriving DecidableEq

def Environment.name : Environment → String
  | .development => "development"
  | .testing => "testing"
  | .production => "production"

def Environment.ofName? (name : String) : Option Environment :=
  [.development, .testing, .production].find? fun known => known.name = name

namespace LogLevel

def name : LogLevel → String
  | .debug => "DEBUG"
  | .info => "INFO"
  | .warning => "WARNING"
  | .error => "ERROR"
  | .critical => "CRITICAL"

def all : List LogLevel :=
  [.debug, .info, .warning, .error, .critical]

def weight : LogLevel → Nat
  | .debug => 10
  | .info => 20
  | .warning => 30
  | .error => 40
  | .critical => 50

-- The dotless letter is the only one outside ASCII whose capital is in a level name.
def capital (c : Char) : Char :=
  if c = 'ı' then 'I' else c.toUpper

def ofName? (name : String) : Option LogLevel :=
  all.find? fun known => known.name.toList = name.toList.map capital

end LogLevel

structure Settings where
  environment : Environment
  policy : Policy
  style : ViewStyle
  logLevel : LogLevel
deriving DecidableEq

def Settings.standard : Settings :=
  ⟨.development, .standard, ⟨"", ", "⟩, .info⟩

-- The kelvin sign is the only character outside ASCII whose small letter is in the
-- name of a setting.
def smallLetter (c : Char) : Char :=
  if c = '\u212A' then 'k' else c.toLower

def inSmallLetters (name : String) : List Char :=
  name.toList.map smallLetter

def findVariable (name : String) (environment : List (String × String)) : Option String :=
  (environment.reverse.find? fun row => inSmallLetters row.1 = inSmallLetters name).map Prod.snd

def Settings.read (start : String) (environment : List (String × String)) : Except (List String) Settings :=
  let find (name : String) := findVariable (start ++ name) environment
  let read {α : Type} (name : String) (unset : α) (ofText : String → Option α) : Option α :=
    match find name with
    | none => some unset
    | some text => ofText text
  let checkUnused := read "check_unused_providers" standard.policy.checkUnused flagOfText?
  let environment := read "environment" standard.environment Environment.ofName?
  let cascade := read "failure_cascade" standard.policy.cascade FailureCascade.ofName?
  let levels := read "level_strategy" standard.policy.levels LevelStrategy.ofName?
  let logLevel := read "log_level" standard.logLevel LogLevel.ofName?
  let style : ViewStyle :=
    ⟨(find "undefined_placeholder").getD standard.style.placeholder,
      (find "array_separator").getD standard.style.separator⟩
  match checkUnused, environment, cascade, levels, logLevel with
  | some checkUnused, some environment, some cascade, some levels, some logLevel =>
    .ok ⟨environment, ⟨levels, cascade, checkUnused⟩, style, logLevel⟩
  | checkUnused, environment, cascade, levels, logLevel =>
    .error ((if checkUnused.isNone then ["check_unused_providers"] else []) ++
      (if environment.isNone then ["environment"] else []) ++
      (if cascade.isNone then ["failure_cascade"] else []) ++
      (if levels.isNone then ["level_strategy"] else []) ++
      (if logLevel.isNone then ["log_level"] else []))

structure ConsoleLog where
  level : LogLevel
  consoleLevel : LogLevel
  formatter : String
  handlers : List String
  propagate : Bool
deriving DecidableEq

def ConsoleLog.ofSettings (settings : Settings) : ConsoleLog where
  level := settings.logLevel
  consoleLevel := settings.logLevel
  formatter := if settings.environment = .production then "json" else "standard"
  handlers := ["console"]
  propagate := false

def ConsoleLog.isEnabled (log : ConsoleLog) (level : LogLevel) : Bool :=
  log.level.weight ≤ level.weight

end WiredViews
