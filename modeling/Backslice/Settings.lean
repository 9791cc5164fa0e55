import Backslice.Analysis
import Backslice.Json.Reader
import Backslice.NameScheme

namespace Backslice

structure Settings where
  language : Json := .text "c"
  function : Json := .text "main"
  versionMark : Json := .text "$"
  suffixMark : Json := .text "#"
  stepBudget : Json := .null
  logLevel : Json := .text "INFO"

inductive SettingsError where
  | missingFile (path : String)
  | badPath
  | notText
  | unreadable (e : Json.ReadError)
  | notObject
  | unknownFields (names : List String)
  | language (given : String)
  | noFunction
  | noSuffix
  | stepBudget (given : String)
  | logLevel (given : String)
  /-- An override has the name `self`, by which the settings know themselves. -/
  | selfNamed
  deriving DecidableEq, Repr

def SettingsError.message : SettingsError → String
  | missingFile path => s!"配置文件不存在: {path}"
  | badPath => "embedded null byte"
  | notText => "配置文件格式错误"
  | unreadable .malformed => "配置文件格式错误"
  | unreadable (.tooManyDigits count) => (IntegerError.tooManyDigits count).message
  | unreadable .listTooDeep =>
    "maximum recursion depth exceeded while decoding a JSON array from a unicode string"
  | unreadable .objectTooDeep =>
    "maximum recursion depth exceeded while decoding a JSON object from a unicode string"
  | notObject => "配置文件顶层必须是JSON对象"
  | unknownFields names => "配置文件包含未知配置项: " ++ ", ".intercalate names
  | language given => s!"不支持的语言: {given}，可选值为 " ++ ", ".intercalate languages
  | noFunction => "'function' 不能为空"
  | noSuffix => "'suffix_marker' 不能为空"
  | stepBudget given => s!"'step_budget' 必须是正整数: {given}"
  | logLevel given => s!"无效的日志级别: {given}"
  | selfNamed => ""

def SettingsError.isDepth : SettingsError → Bool
  | unreadable .listTooDeep => true
  | unreadable .objectTooDeep => true
  | _ => false

namespace Settings

/-- Capital letters for the letters that the names of severities are made of. The dotless i has the
same capital as the dotted one. -/
def capital (c : Char) : Char :=
  if 'a' ≤ c && c ≤ 'z' then Char.ofNat (c.toNat - 32)
  else if c == 'ı' then 'I'
  else c

def severityOf? (name : String) : Option Severity :=
  Severity.ofName? (String.ofList (name.toList.map capital))

def isLanguage : Json → Bool
  | .text s => languages.contains s.shown
  | _ => false

def isBudget : Json → Bool
  | .null => true
  | .int n => 0 < n
  | _ => false

def isLogLevel : Json → Bool
  | .text s => (severityOf? s.shown).isSome
  | _ => false

def fault? (s : Settings) : Option SettingsError :=
  if !isLanguage s.language then some (.language s.language.shown)
  else if !s.function.isTrue then some .noFunction
  else if !s.suffixMark.isTrue then some .noSuffix
  else if !isBudget s.stepBudget then some (.stepBudget s.stepBudget.shown)
  else if !isLogLevel s.logLevel then some (.logLevel s.logLevel.shown)
  else none

def validated (s : Settings) : Except SettingsError Settings :=
  match s.fault? with
  | some e => .error e
  | none => .ok s

def fields (s : Settings) : List (String × Json) :=
  [("language", s.language), ("function", s.function), ("prefix_marker", s.versionMark),
   ("suffix_marker", s.suffixMark), ("step_budget", s.stepBudget), ("log_level", s.logLevel)]

def fieldNames : List String := ({} : Settings).fields.map (·.1)

def withField (s : Settings) (name : String) (v : Json) : Settings :=
  match name with
  | "language" => { s with language := v }
  | "function" => { s with function := v }
  | "prefix_marker" => { s with versionMark := v }
  | "suffix_marker" => { s with suffixMark := v }
  | "step_budget" => { s with stepBudget := v }
  | "log_level" => { s with logLevel := v }
  | _ => s

def override (s : Settings) (given : List (RawText × Json)) : Except SettingsError Settings :=
  let names := (given.map (·.1)).eraseDups
  match RawText.sorted (names.filter fun n => !fieldNames.contains n.shown) with
  | [] => (given.foldl (fun s f => s.withField f.1.shown f.2) s).validated
  | unknown => .error (.unknownFields (unknown.map RawText.shown))

def ofFields (given : List (RawText × Json)) : Except SettingsError Settings :=
  override {} given

/-- Settings with the fields replaced for which a value is given. No override has the name
`self`, by which the settings know themselves. -/
def merged (s : Settings) (given : List (RawText × Json)) : Except SettingsError Settings :=
  if given.any (·.1 = ("self" : RawText)) then .error .selfNamed
  else s.override (given.filter fun f => !(f.2 matches .null))

def maxDepth : Nat := 988

def ofContent (content : ByteArray) : Except SettingsError Settings :=
  match String.fromUTF8? content with
  | none => .error .notText
  | some text =>
    match Json.read maxDepth text with
    | .error e => .error (.unreadable e)
    | .ok (.object given) => ofFields given
    | .ok _ => .error .notObject

def given (v : Json) : GivenText :=
  match v with
  | .text s => .text s
  | v => if v.isTrue then .alien v.shown else .text ""

def scheme (s : Settings) : NameScheme := ⟨given s.versionMark, given s.suffixMark⟩

def languageName (s : Settings) : String := s.language.shown

def functionName (s : Settings) : GivenText := given s.function

def budget (s : Settings) : Option Int :=
  match s.stepBudget with
  | .int n => some n
  | _ => none

def severity (s : Settings) : Severity :=
  match s.logLevel with
  | .text name => (severityOf? name.shown).getD .info
  | _ => .info

end Settings

end Backslice
