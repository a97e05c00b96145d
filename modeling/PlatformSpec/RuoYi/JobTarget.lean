import Mathlib
import PlatformSpec.Base.Numeral
import PlatformSpec.RuoYi.StringUtils

/-!
# Scheduled jobs of RuoYi

Models `SysJobController.addSave` and `editSave`, `ScheduleUtils.whiteList` and `JobInvokeUtil`:
what is checked when a job is stored, and which method runs when it is due.
-/

namespace PlatformSpec.RuoYi

open Base Split

section Texts

/-- `StringUtils.substringBefore` with a separator of one character. -/
def substringBefore (str : Str) (separator : Char) : Str :=
  str.takeWhile fun c => decide (c ≠ separator)

/-- `StringUtils.substringBeforeLast` with a separator of one character. -/
def substringBeforeLast (str : Str) (separator : Char) : Str :=
  if separator ∈ str then beforeLast separator str else str

/-- `StringUtils.substringAfterLast` with a separator of one character. -/
def substringAfterLast (str : Str) (separator : Char) : Str :=
  if separator ∈ str then afterLast separator str else []

/-- `StringUtils.countMatches` of one character. -/
def countMatches (str : Str) (c : Char) : Nat := str.count c

/-- `StringUtils.split` at one character: empty pieces are left out. -/
def split (str : Str) (separator : Char) : List Str :=
  (str.splitOn separator).filter fun piece => !piece.isEmpty

/-- `StringUtils.startsWithAny`. -/
def startsWithAny (sequence : Str) (searchStrings : List Str) : Bool :=
  searchStrings.any fun search => search.isPrefixOf sequence

/-- What `regionMatches` compares when it ignores the case, for a search text in ASCII: the four
characters beside ASCII are those whose upper or lower case is an ASCII letter. -/
def foldCase (c : Char) : Char :=
  if c.toNat = 0x130 ∨ c.toNat = 0x131 then 'i'
  else if c.toNat = 0x17f then 's'
  else if c.toNat = 0x212a then 'k'
  else c.toLower

/-- `StringUtils.containsIgnoreCase`. -/
def containsIgnoreCase (str searchStr : Str) : Bool :=
  decide (searchStr.map foldCase <:+: str.map foldCase)

/-- `StringUtils.containsAnyIgnoreCase`. -/
def containsAnyIgnoreCase (str : Str) (searchStrs : List Str) : Bool :=
  if str.isEmpty || searchStrs.isEmpty then false
  else searchStrs.any fun search => containsIgnoreCase str search

/-- `equalsIgnoreCase`. -/
def equalsIgnoreCase (str other : Str) : Bool := decide (str.map foldCase = other.map foldCase)

end Texts

/-- The type of an argument. -/
inductive ParamType where
  | string
  | boolean
  | long
  | double
  | integer
  deriving DecidableEq

/-- An argument of a method; a `double` is kept as its text. -/
inductive Param where
  | string (value : Str)
  | boolean (value : Bool)
  | long (value : Int)
  | double (text : Str)
  | integer (value : Int)
  deriving DecidableEq

/-- `os[1]`. -/
def Param.type : Param → ParamType
  | .string _ => .string
  | .boolean _ => .boolean
  | .long _ => .long
  | .double _ => .double
  | .integer _ => .integer

/-- The libraries and the application that runs on them: the beans, the classes that can be loaded
and their methods. A class is its binary name. -/
structure Application where
  /-- `CronExpression.isValidExpression`. -/
  isValidExpression : Str → Bool
  /-- `Character.digit(c, 10)`. -/
  digit : Char → Option Nat
  /-- `Double.valueOf` gives a number. -/
  isDouble : Str → Bool
  /-- The class of the object that `beanFactory.getBean` gives. -/
  getBean : Str → Option Str
  /-- `Class.forName(name).getDeclaredConstructor().newInstance()` gives an object. -/
  instantiable : Str → Bool
  /-- `getMethod` finds a method of this name for arguments of these types. -/
  hasMethod : Str → Str → List ParamType → Bool
  /-- Every method has a name. -/
  named : ∀ cls types, hasMethod cls [] types = false

/-- An application that knows the digits of ASCII. -/
def asciiApplication : Application where
  isValidExpression := fun _ => false
  digit := Numeral.asciiDigit
  isDouble := fun _ => false
  getBean := fun _ => none
  instantiable := fun _ => false
  hasMethod := fun _ _ _ => false
  named := fun _ _ => rfl

/-- `getClass().getPackage().getName()`; a class of arrays has no package. -/
def packageName (cls : Str) : Option Str :=
  if cls.head? = some '[' then none
  else some (if '.' ∈ cls then beforeLast '.' cls else [])

section Constants

/-- `Constants.LOOKUP_RMI`. -/
def lookupRmi : Str := "rmi:".toList

/-- `Constants.LOOKUP_LDAP`. -/
def lookupLdap : Str := "ldap:".toList

/-- `Constants.LOOKUP_LDAPS`. -/
def lookupLdaps : Str := "ldaps:".toList

/-- `Constants.HTTP`. -/
def http : Str := "http://".toList

/-- `Constants.HTTPS`. -/
def https : Str := "https://".toList

/-- The package of `Constants.JOB_WHITELIST_STR`. -/
def taskPackage : Str := "com.ruoyi.quartz.task".toList

/-- `Constants.JOB_WHITELIST_STR`. -/
def jobWhitelistStr : List Str := [taskPackage]

/-- `Constants.JOB_ERROR_STR`. -/
def jobErrorStr : List Str :=
  ["java.net.URL".toList, "javax.naming.InitialContext".toList, "org.yaml.snakeyaml".toList,
    "org.springframework".toList, "org.apache".toList, "com.ruoyi.common.utils.file".toList,
    "com.ruoyi.common.config".toList, "com.ruoyi.generator".toList]

end Constants

section Invoke

variable (app : Application)

/-- `JobInvokeUtil.isValidClassName`. -/
def isValidClassName (invokeTarget : Str) : Bool := decide (1 < countMatches invokeTarget '.')

/-- `JobInvokeUtil.getBeanName`. -/
def getBeanName (invokeTarget : Str) : Str :=
  substringBeforeLast (substringBefore invokeTarget '(') '.'

/-- `JobInvokeUtil.getMethodName`. -/
def getMethodName (invokeTarget : Str) : Str :=
  substringAfterLast (substringBefore invokeTarget '(') '.'

/-- `StringUtils.substringBetweenLast` with `(` and `)`; `none` where `substring` fails because
the last `)` stands before the first `(`. -/
def substringBetweenLast (str : Str) : Option Str :=
  if isEmpty (some str) || !str.contains '(' || !str.contains ')' then some []
  else
    let start := (substringBefore str '(').length + 1
    let stop := (beforeLast ')' str).length
    if start ≤ stop then some ((str.take stop).drop start) else none

/-- A quote of either kind. -/
def isQuote (c : Char) : Bool := decide (c = '\'') || decide (c = '"')

/-- The pieces between the commas that an even number of quotes follows. -/
def splitUnquoted : Str → List Str
  | [] => [[]]
  | c :: rest =>
    if c = ',' ∧ rest.countP isQuote % 2 = 0 then [] :: splitUnquoted rest
    else (splitUnquoted rest).modifyHead (c :: ·)

/-- `methodStr.split(..)`: empty pieces at the end are left out where there is a separator. -/
def splitParams (methodStr : Str) : List Str :=
  let pieces := splitUnquoted methodStr
  if 1 < pieces.length then stripRight List.isEmpty pieces else pieces

/-- The digits of a number. -/
def readDigits (digits : Str) : Option Nat :=
  if digits = [] then none
  else digits.foldlM (fun n c => (app.digit c).map fun d => 10 * n + d) 0

/-- `Integer.valueOf` and `Long.valueOf`, of 32 and of 64 bits. -/
def valueOf (bits : Nat) : Str → Option Int
  | '-' :: digits => (readDigits app digits).bind fun n =>
      if n ≤ 2 ^ (bits - 1) then some (-n) else none
  | '+' :: digits => (readDigits app digits).bind fun n =>
      if n < 2 ^ (bits - 1) then some n else none
  | digits => (readDigits app digits).bind fun n =>
      if n < 2 ^ (bits - 1) then some n else none

/-- An argument, from its text; `none` when a number cannot be read. -/
def methodParam (piece : Str) : Option Param :=
  let str := trim piece
  if startsWithAny str [['\''], ['"']] then some (.string (str.tail.take (str.length - 2)))
  else if equalsIgnoreCase "true".toList str || equalsIgnoreCase "false".toList str then
    some (.boolean (equalsIgnoreCase "true".toList str))
  else if str.getLast? = some 'L' then (valueOf app 64 str.dropLast).map .long
  else if str.getLast? = some 'D' then
    if app.isDouble str.dropLast then some (.double str.dropLast) else none
  else (valueOf app 32 str).map .integer

/-- `JobInvokeUtil.getMethodParams`: no arguments where the source gives `null`; `none` when it
throws. -/
def getMethodParams (invokeTarget : Str) : Option (List Param) :=
  (substringBetweenLast invokeTarget).bind fun methodStr =>
    if isEmpty (some methodStr) then some []
    else (splitParams methodStr).mapM (methodParam app)

/-- A call of a method. -/
structure Call where
  receiver : Str
  methodName : Str
  methodParams : List Param
  deriving DecidableEq

/-- The second `JobInvokeUtil.invokeMethod`, on an object of a class. -/
def invokeOn (receiver methodName : Str) (methodParams : List Param) : Option Call :=
  if app.hasMethod receiver methodName (methodParams.map Param.type) then
    some ⟨receiver, methodName, methodParams⟩
  else none

/-- `JobInvokeUtil.invokeMethod`: the call it makes, if nothing is thrown before. -/
def invokeMethod (invokeTarget : Str) : Option Call :=
  let beanName := getBeanName invokeTarget
  let methodName := getMethodName invokeTarget
  (getMethodParams app invokeTarget).bind fun methodParams =>
    if !isValidClassName beanName then
      (app.getBean beanName).bind fun bean => invokeOn app bean methodName methodParams
    else if app.instantiable beanName then invokeOn app beanName methodName methodParams
    else none

end Invoke

section Check

variable (app : Application)

/-- `ScheduleUtils.whiteList`; `none` when it throws. -/
def whiteList (invokeTarget : Str) : Option Bool :=
  if 1 < countMatches (substringBefore invokeTarget '(') '.' then
    some (startsWithAny invokeTarget jobWhitelistStr)
  else do
    let obj ← app.getBean (← (split invokeTarget '.').head?)
    let beanPackageName ← packageName obj
    some (startsWithAny beanPackageName jobWhitelistStr &&
      !startsWithAny beanPackageName jobErrorStr)

/-- What is read of a job that comes with a request; a field that is left out is `null`. -/
structure SysJob where
  jobName : Option Str
  invokeTarget : Option Str
  cronExpression : Option Str

/-- `@NotBlank`. -/
def notBlank (value : Option Str) : Bool := !isEmpty value

/-- `@Size(max = ..)`, in UTF-16 units; `null` has every size. -/
def sizeAtMost (bound : Nat) (value : Option Str) : Bool :=
  ((value.getD []).map fun c => if c.toNat < 0x10000 then 1 else 2).sum ≤ bound

/-- The constraints of `SysJob` that a job does not meet, as their messages. -/
def violations (job : SysJob) : List Str :=
  [(notBlank job.jobName, "任务名称不能为空".toList),
    (sizeAtMost 64 job.jobName, "任务名称不能超过64个字符".toList),
    (notBlank job.invokeTarget, "调用目标字符串不能为空".toList),
    (sizeAtMost 1000 job.invokeTarget, "调用目标字符串长度不能超过500个字符".toList),
    (notBlank job.cronExpression, "Cron执行表达式不能为空".toList),
    (sizeAtMost 255 job.cronExpression, "Cron执行表达式不能超过255个字符".toList)].filterMap
      fun rule => if rule.1 then none else some rule.2

/-- What becomes of a request to store a job. -/
inductive Reply where
  | invalid (messages : List Str)
  | error (message : Str)
  | exception
  | accepted
  deriving DecidableEq

/-- The checks of `addSave` and `editSave`, which differ in two texts. -/
def checkJob (action ldap : Str) (job : SysJob) : Reply :=
  let invokeTarget := job.invokeTarget.getD []
  let error (reason : Str) : Reply :=
    .error (action ++ ("任务'".toList ++ (job.jobName.getD [] ++ ("'失败，".toList ++ reason))))
  if violations job ≠ [] then .invalid (violations job)
  else if !app.isValidExpression (job.cronExpression.getD []) then
    error "Cron表达式不正确".toList
  else if containsIgnoreCase invokeTarget lookupRmi then
    error "目标字符串不允许'rmi'调用".toList
  else if containsAnyIgnoreCase invokeTarget [lookupLdap, lookupLdaps] then
    error ("目标字符串不允许'".toList ++ (ldap ++ "'调用".toList))
  else if containsAnyIgnoreCase invokeTarget [http, https] then
    error "目标字符串不允许'http(s)'调用".toList
  else if containsAnyIgnoreCase invokeTarget jobErrorStr then
    error "目标字符串存在违规".toList
  else
    match whiteList app invokeTarget with
    | none => .exception
    | some false => error "目标字符串不在白名单内".toList
    | some true => .accepted

/-- The checks of `SysJobController.addSave`. -/
def SysJobController.addSave (job : SysJob) : Reply := checkJob app "新增".toList "ldap(s)".toList job

/-- The checks of `SysJobController.editSave`. -/
def SysJobController.editSave (job : SysJob) : Reply := checkJob app "修改".toList "ldap".toList job

end Check

end PlatformSpec.RuoYi
