import PlatformSpec.RuoYi.JobTarget

/-!
# What scheduled jobs call

The whitelist names a package, and a call should reach no class outside it. The check compares
names letter by letter, and it reads the target in another way than the call does.
-/

namespace PlatformSpec.RuoYi

open Base Split

/-- A class of the package for tasks or of one of its sub-packages. -/
def InTaskPackage (cls : Str) : Prop :=
  ∃ package, packageName cls = some package ∧
    (package = taskPackage ∨ taskPackage ++ ['.'] <+: package)

/-- A name that begins as the package for tasks does and goes on without a dot. -/
def SharesPrefix (name : Str) : Prop :=
  ∃ c rest, name = taskPackage ++ c :: rest ∧ c ≠ '.'

/-- The package that holds the package for tasks. -/
def quartzPackage : Str := "com.ruoyi.quartz".toList

/-- A job is stored. -/
def Accepted (app : Application) (job : SysJob) : Prop :=
  SysJobController.addSave app job = .accepted ∨ SysJobController.editSave app job = .accepted

/-- The arguments of a target can be read, and its method exists in a class. -/
def Callable (app : Application) (invokeTarget cls : Str) : Prop :=
  ∃ methodParams, getMethodParams app invokeTarget = some methodParams ∧
    app.hasMethod cls (getMethodName invokeTarget) (methodParams.map Param.type) = true

/-- The targets that get past the check to a class beside the package for tasks. -/
inductive Escapes (app : Application) (invokeTarget : Str) : Prop where
  /-- The class has the name of a package, or its name only begins as the package's does. -/
  | className (hdots : 1 < countMatches (substringBefore invokeTarget '(') '.')
      (hname : getBeanName invokeTarget = quartzPackage ∨
        getBeanName invokeTarget = taskPackage ∨ SharesPrefix (getBeanName invokeTarget))
      (hnew : app.instantiable (getBeanName invokeTarget) = true)
      (hcall : Callable app invokeTarget (getBeanName invokeTarget))
  /-- The package of the bean's class only begins as the package for tasks does. -/
  | beanPackage {cls package : Str}
      (hdots : countMatches (substringBefore invokeTarget '(') '.' ≤ 1)
      (hbean : app.getBean (getBeanName invokeTarget) = some cls)
      (hpackage : packageName cls = some package) (hname : SharesPrefix package)
      (hcall : Callable app invokeTarget cls)
  /-- The target begins with a dot: the bean without a name is called, another one is checked. -/
  | noName {cls : Str} (hdots : countMatches (substringBefore invokeTarget '(') '.' ≤ 1)
      (hdot : invokeTarget.head? = some '.') (hbean : app.getBean [] = some cls)
      (hout : ¬ InTaskPackage cls) (hcall : Callable app invokeTarget cls)

section Names

theorem taskPackage_eq : taskPackage = quartzPackage ++ '.' :: ['t', 'a', 's', 'k'] := by
  decide +kernel

theorem count_quartzPackage : quartzPackage.count '.' = 2 := by
  decide +kernel

theorem paren_not_mem_taskPackage : '(' ∉ taskPackage := by
  decide +kernel

theorem head_taskPackage : taskPackage.head? = some 'c' := by
  decide +kernel

variable {name cls package : Str}

/-- A name that begins as the package's does is the package's, goes on after a dot, or only shares
the letters. -/
theorem prefix_taskPackage_iff : taskPackage <+: name ↔
    name = taskPackage ∨ taskPackage ++ ['.'] <+: name ∨ SharesPrefix name := by
  constructor
  · rintro ⟨rest, rfl⟩
    cases rest with
    | nil => exact .inl (List.append_nil _)
    | cons c rest =>
      by_cases hc : c = '.'
      · subst hc
        exact .inr (.inl ⟨rest, by simp⟩)
      · exact .inr (.inr ⟨c, rest, rfl, hc⟩)
  · rintro (rfl | h | ⟨c, rest, rfl, -⟩)
    · exact List.prefix_rfl
    · exact (List.prefix_append _ _).trans h
    · exact List.prefix_append _ _

theorem SharesPrefix.not_inside (h : SharesPrefix name) :
    ¬ (name = taskPackage ∨ taskPackage ++ ['.'] <+: name) := by
  obtain ⟨c, rest, rfl, hc⟩ := h
  rintro (he | ⟨s, hs⟩)
  · simp at he
  · simp only [List.append_assoc, List.append_cancel_left_eq, List.singleton_append,
      List.cons.injEq] at hs
    exact hc hs.1.symm

/-- A class is in the package if and only if its name goes on after the package's and a dot. -/
theorem inTaskPackage_iff : InTaskPackage cls ↔ taskPackage ++ ['.'] <+: cls := by
  have hhead : taskPackage ++ ['.'] <+: cls → cls.head? = some 'c' := by
    rintro ⟨rest, rfl⟩
    rw [List.append_assoc, List.head?_append, head_taskPackage]
    rfl
  have hmem : taskPackage ++ ['.'] <+: cls → '.' ∈ cls := fun h => h.subset (by simp)
  unfold InTaskPackage packageName
  constructor
  · rintro ⟨package, hpackage, h⟩
    split at hpackage
    next => cases hpackage
    next =>
      cases hpackage
      by_cases hdot : '.' ∈ cls
      · rw [if_pos hdot] at h
        exact (prefix_iff_beforeLast hdot).mpr h
      · rw [if_neg hdot, taskPackage_eq] at h
        simp at h
  · intro h
    refine ⟨beforeLast '.' cls, ?_, (prefix_iff_beforeLast (hmem h)).mp h⟩
    rw [if_neg, if_pos (hmem h)]
    rw [hhead h]
    decide

/-- The package of a class that passes the prefix comparison: inside, or sharing the letters. -/
theorem not_inTaskPackage_iff (hpackage : packageName cls = some package)
    (h : taskPackage <+: package) : ¬ InTaskPackage cls ↔ SharesPrefix package := by
  have hin : InTaskPackage cls ↔ package = taskPackage ∨ taskPackage ++ ['.'] <+: package := by
    unfold InTaskPackage
    rw [hpackage]
    simp
  rw [hin]
  constructor
  · intro hout
    rw [not_or] at hout
    rcases prefix_taskPackage_iff.mp h with he | hdot | hshares
    · exact absurd he hout.1
    · exact absurd hdot hout.2
    · exact hshares
  · exact SharesPrefix.not_inside

end Names

section Target

variable {invokeTarget : Str}

theorem startsWithAny_whitelist {str : Str} :
    startsWithAny str jobWhitelistStr = true ↔ taskPackage <+: str := by
  simp [startsWithAny, jobWhitelistStr]

theorem substringBefore_append {front rest : Str} (h : '(' ∉ front) :
    substringBefore (front ++ rest) '(' = front ++ substringBefore rest '(' := by
  rw [substringBefore, List.takeWhile_append_of_pos]
  · rfl
  · intro c hc
    rw [decide_eq_true_iff]
    rintro rfl
    exact h hc

theorem head_split {front rest : Str} (h : '.' ∉ front) (hne : front ≠ []) :
    (split (front ++ '.' :: rest) '.').head? = some front := by
  rw [split, List.splitOn_append_cons_self_of_not_mem h, List.filter_cons_of_pos, List.head?_cons]
  simpa using hne

theorem substringBefore_eq (h : '.' ∈ substringBefore invokeTarget '(') :
    substringBefore invokeTarget '(' =
      getBeanName invokeTarget ++ '.' :: getMethodName invokeTarget := by
  rw [getBeanName, getMethodName, substringBeforeLast, substringAfterLast, if_pos h, if_pos h]
  exact (eq_append_last h).1

theorem getBeanName_of_start (h : taskPackage <+: invokeTarget) :
    getBeanName invokeTarget = quartzPackage ∨ taskPackage <+: getBeanName invokeTarget := by
  obtain ⟨rest, rfl⟩ := h
  have hbefore : substringBefore (taskPackage ++ rest) '(' =
      taskPackage ++ substringBefore rest '(' := substringBefore_append paren_not_mem_taskPackage
  have hdot : '.' ∈ substringBefore (taskPackage ++ rest) '(' := by
    rw [hbefore, taskPackage_eq]
    simp
  rw [getBeanName, substringBeforeLast, if_pos hdot, hbefore]
  by_cases hrest : '.' ∈ substringBefore rest '('
  · obtain ⟨hsplit, hlast⟩ := eq_append_last hrest
    right
    rw [hsplit, ← List.append_assoc, beforeLast_append_cons hlast]
    exact List.prefix_append _ _
  · left
    rw [taskPackage_eq, List.append_assoc, List.cons_append]
    exact beforeLast_append_cons (by simpa using hrest)

theorem isValidClassName_of_start (h : taskPackage <+: invokeTarget) :
    isValidClassName (getBeanName invokeTarget) = true := by
  have hquartz : quartzPackage <+: getBeanName invokeTarget := by
    rcases getBeanName_of_start h with he | htask
    · rw [he]
    · rw [taskPackage_eq] at htask
      exact (List.prefix_append _ _).trans htask
  have hcount := hquartz.sublist.count_le '.'
  rw [count_quartzPackage] at hcount
  rw [isValidClassName, countMatches, decide_eq_true_iff]
  omega

theorem not_isValidClassName (h : countMatches (substringBefore invokeTarget '(') '.' ≤ 1) :
    isValidClassName (getBeanName invokeTarget) = false := by
  have hstart : getBeanName invokeTarget <+: substringBefore invokeTarget '(' := by
    rw [getBeanName, substringBeforeLast]
    split
    next hdot =>
      conv_rhs => rw [(eq_append_last hdot).1]
      exact List.prefix_append _ _
    next => exact List.prefix_rfl
  have hcount := hstart.sublist.count_le '.'
  rw [countMatches] at h
  rw [isValidClassName, countMatches, decide_eq_false_iff_not]
  omega

/-- A target with a method and one dot: the name of the bean stands before the dot. -/
theorem target_eq (hdots : countMatches (substringBefore invokeTarget '(') '.' ≤ 1)
    (hmethod : getMethodName invokeTarget ≠ []) :
    '.' ∉ getBeanName invokeTarget ∧
      ∃ rest, invokeTarget = getBeanName invokeTarget ++ '.' :: rest := by
  have hdot : '.' ∈ substringBefore invokeTarget '(' := by
    by_contra hnot
    rw [getMethodName, substringAfterLast, if_neg hnot] at hmethod
    exact hmethod rfl
  have hbefore := substringBefore_eq hdot
  constructor
  · intro hmem
    have hpos := List.count_pos_iff.mpr hmem
    rw [countMatches, hbefore, List.count_append, List.count_cons_self] at hdots
    omega
  · obtain ⟨rest, hrest⟩ : substringBefore invokeTarget '(' <+: invokeTarget :=
      List.takeWhile_prefix _
    refine ⟨getMethodName invokeTarget ++ rest, ?_⟩
    conv_lhs => rw [← hrest, hbefore]
    rw [List.append_assoc, List.cons_append]

end Target

section Jobs

variable {app : Application} {invokeTarget cls : Str}

/-- The class on whose object the method is called. -/
def receiver (app : Application) (invokeTarget : Str) : Option Str :=
  if isValidClassName (getBeanName invokeTarget) then
    if app.instantiable (getBeanName invokeTarget) then some (getBeanName invokeTarget) else none
  else app.getBean (getBeanName invokeTarget)

theorem Callable.getMethodName_ne_nil (h : Callable app invokeTarget cls) :
    getMethodName invokeTarget ≠ [] := by
  obtain ⟨methodParams, -, hmethod⟩ := h
  intro hname
  rw [hname, app.named] at hmethod
  cases hmethod

theorem invokeOn_eq_some {name : Str} {params : List Param} {call : Call} :
    invokeOn app cls name params = some call ↔
      app.hasMethod cls name (params.map Param.type) = true ∧ call = ⟨cls, name, params⟩ := by
  rw [invokeOn]
  split
  next h => simp [h, eq_comm]
  next h => simp [h]

/-- A method is called on an object if the object is found, the arguments are read and the class
has the method. -/
theorem exists_call_iff :
    (∃ call, invokeMethod app invokeTarget = some call ∧ call.receiver = cls) ↔
      receiver app invokeTarget = some cls ∧ Callable app invokeTarget cls := by
  have hinvoke (params : List Param) (call : Call) :
      (if !isValidClassName (getBeanName invokeTarget) then
          (app.getBean (getBeanName invokeTarget)).bind fun bean =>
            invokeOn app bean (getMethodName invokeTarget) params
        else if app.instantiable (getBeanName invokeTarget) then
          invokeOn app (getBeanName invokeTarget) (getMethodName invokeTarget) params
        else none) = some call ↔
      ∃ bean, receiver app invokeTarget = some bean ∧
        invokeOn app bean (getMethodName invokeTarget) params = some call := by
    rw [receiver]
    cases isValidClassName (getBeanName invokeTarget) with
    | false => simp [Option.bind_eq_some_iff]
    | true =>
      cases app.instantiable (getBeanName invokeTarget) with
      | false => simp
      | true => simp
  simp only [invokeMethod, Option.bind_eq_some_iff, hinvoke, invokeOn_eq_some]
  constructor
  · rintro ⟨call, ⟨params, hparams, bean, hbean, hmethod, rfl⟩, rfl⟩
    exact ⟨hbean, params, hparams, hmethod⟩
  · rintro ⟨hbean, params, hparams, hmethod⟩
    exact ⟨_, ⟨params, hparams, cls, hbean, hmethod, rfl⟩, rfl⟩

theorem Accepted.whiteList {job : SysJob} (h : Accepted app job) :
    whiteList app (job.invokeTarget.getD []) = some true := by
  have hcheck (action ldap : Str) (hc : checkJob app action ldap job = .accepted) :
      RuoYi.whiteList app (job.invokeTarget.getD []) = some true := by
    unfold checkJob at hc
    simp only at hc
    split at hc
    next => cases hc
    next =>
      iterate 5
        split at hc
        next => cases hc
      split at hc
      next => cases hc
      next => cases hc
      next h => exact h
  rcases h with h | h
  · exact hcheck _ _ h
  · exact hcheck _ _ h

theorem whiteList_eq_true (h : whiteList app invokeTarget = some true) :
    1 < countMatches (substringBefore invokeTarget '(') '.' ∧ taskPackage <+: invokeTarget ∨
      countMatches (substringBefore invokeTarget '(') '.' ≤ 1 ∧
        ∃ name obj package, (split invokeTarget '.').head? = some name ∧
          app.getBean name = some obj ∧ packageName obj = some package ∧
          taskPackage <+: package := by
  unfold whiteList at h
  split at h
  next hdots =>
    left
    exact ⟨hdots, startsWithAny_whitelist.mp (Option.some.inj h)⟩
  next hdots =>
    right
    simp only [Option.bind_eq_bind, Option.bind_eq_some_iff, Option.some.injEq,
      Bool.and_eq_true] at h
    obtain ⟨name, hname, obj, hobj, package, hpackage, hstarts, -⟩ := h
    exact ⟨by omega, name, obj, package, hname, hobj, hpackage,
      startsWithAny_whitelist.mp hstarts⟩

theorem escapes_iff_of_className
    (hdots : 1 < countMatches (substringBefore invokeTarget '(') '.')
    (hstart : taskPackage <+: invokeTarget) :
    (∃ cls, ¬ InTaskPackage cls ∧ receiver app invokeTarget = some cls ∧
      Callable app invokeTarget cls) ↔ Escapes app invokeTarget := by
  rw [receiver, if_pos (isValidClassName_of_start hstart)]
  have hshort : ¬ taskPackage ++ ['.'] <+: taskPackage := fun hlong => by
    have := hlong.length_le
    rw [List.length_append, List.length_singleton] at this
    omega
  have hquartz : quartzPackage <+: taskPackage := by
    rw [taskPackage_eq]
    exact List.prefix_append _ _
  constructor
  · rintro ⟨cls, hout, hcls, hcall⟩
    split at hcls
    next hnew =>
      cases hcls
      refine .className hdots ?_ hnew hcall
      rw [inTaskPackage_iff] at hout
      rcases getBeanName_of_start hstart with he | htask
      · exact .inl he
      · rcases prefix_taskPackage_iff.mp htask with he | hin | hshares
        · exact .inr (.inl he)
        · exact absurd hin hout
        · exact .inr (.inr hshares)
    next => cases hcls
  · intro hescapes
    cases hescapes with
    | className _ hbeside hnew hcall =>
      refine ⟨_, ?_, by rw [if_pos hnew], hcall⟩
      rw [inTaskPackage_iff]
      rcases hbeside with he | he | hshares
      · rw [he]
        exact fun hin => hshort (hin.trans hquartz)
      · rw [he]
        exact hshort
      · exact fun hin => hshares.not_inside (.inr hin)
    | beanPackage hfew => omega
    | noName hfew => omega

theorem escapes_iff_of_bean
    (hdots : countMatches (substringBefore invokeTarget '(') '.' ≤ 1)
    {name obj package : Str} (hname : (split invokeTarget '.').head? = some name)
    (hobj : app.getBean name = some obj) (hpackage : packageName obj = some package)
    (hstart : taskPackage <+: package) :
    (∃ cls, ¬ InTaskPackage cls ∧ receiver app invokeTarget = some cls ∧
      Callable app invokeTarget cls) ↔ Escapes app invokeTarget := by
  have hreceiver : receiver app invokeTarget = app.getBean (getBeanName invokeTarget) := by
    rw [receiver, if_neg]
    rw [not_isValidClassName hdots]
    decide
  rw [hreceiver]
  constructor
  · rintro ⟨cls, hout, hcls, hcall⟩
    obtain ⟨hdot, rest, htarget⟩ := target_eq hdots hcall.getMethodName_ne_nil
    by_cases hempty : getBeanName invokeTarget = []
    · rw [hempty] at hcls htarget
      exact .noName hdots (by rw [htarget]; rfl) hcls hout hcall
    · -- the bean that is checked is the one that is called
      rw [htarget, head_split hdot hempty] at hname
      cases hname
      rw [hobj] at hcls
      cases hcls
      exact .beanPackage hdots hobj hpackage ((not_inTaskPackage_iff hpackage hstart).mp hout)
        hcall
  · intro hescapes
    cases hescapes with
    | className hmany => omega
    | beanPackage _ hbean hin hshares hcall =>
      have hbegins := prefix_taskPackage_iff.mpr (.inr (.inr hshares))
      exact ⟨_, (not_inTaskPackage_iff hin hbegins).mpr hshares, hbean, hcall⟩
    | noName _ hdot hbean hout hcall =>
      obtain ⟨hno, rest, htarget⟩ := target_eq hdots hcall.getMethodName_ne_nil
      have hempty : getBeanName invokeTarget = [] := by
        cases hb : getBeanName invokeTarget with
        | nil => rfl
        | cons c front =>
          rw [hb] at htarget hno
          rw [htarget] at hdot
          cases hdot
          simp at hno
      exact ⟨_, hout, by rw [hempty]; exact hbean, hcall⟩

/-- A target that passes the whitelist calls a class outside the package if and only if it is one
of those that get past the check. -/
theorem escapes_iff (h : whiteList app invokeTarget = some true) :
    (∃ cls, ¬ InTaskPackage cls ∧ receiver app invokeTarget = some cls ∧
      Callable app invokeTarget cls) ↔ Escapes app invokeTarget := by
  rcases whiteList_eq_true h with ⟨hdots, hstart⟩ | ⟨hdots, name, obj, package, hname, hobj,
    hpackage, hstart⟩
  · exact escapes_iff_of_className hdots hstart
  · exact escapes_iff_of_bean hdots hname hobj hpackage hstart

/-- A stored job calls only classes of the package for tasks, unless its target is one of those
that get past the check. -/
theorem jobTarget_iff {job : SysJob} (h : Accepted app job) :
    (∀ call, invokeMethod app (job.invokeTarget.getD []) = some call →
        InTaskPackage call.receiver) ↔
      ¬ Escapes app (job.invokeTarget.getD []) := by
  rw [← escapes_iff h.whiteList]
  constructor
  · rintro hall ⟨cls, hout, hcalls⟩
    obtain ⟨call, hcall, rfl⟩ := exists_call_iff.mpr hcalls
    exact hout (hall call hcall)
  · intro hnone call hcall
    by_contra hout
    exact hnone ⟨call.receiver, hout, exists_call_iff.mp ⟨call, hcall, rfl⟩⟩

end Jobs

section Example

/-- An application with one task and a class of a package beside the one for tasks. -/
def sampleApplication : Application where
  isValidExpression _ := true
  digit c := if c.isDigit then some (c.toNat - 48) else none
  isDouble _ := false
  getBean name :=
    if name = "ryTask".toList then some "com.ruoyi.quartz.task.RyTask".toList else none
  instantiable name := decide (name = "com.ruoyi.quartz.tasks.Cleaner".toList)
  hasMethod cls name types :=
    (decide (cls = "com.ruoyi.quartz.task.RyTask".toList) &&
      decide (name = "ryParams".toList) && decide (types = [.string])) ||
    (decide (cls = "com.ruoyi.quartz.tasks.Cleaner".toList) &&
      decide (name = "clean".toList) && decide (types = []))
  named cls types := by
    have hparams : ([] : Str) ≠ "ryParams".toList := by decide
    have hclean : ([] : Str) ≠ "clean".toList := by decide
    simp only [hparams, hclean, decide_false, Bool.and_false, Bool.false_and, Bool.or_false]

/-- A job with a target. -/
def sampleJob (invokeTarget : Str) : SysJob where
  jobName := some "job".toList
  invokeTarget := some invokeTarget
  cronExpression := some "0/10 * * * * ?".toList

theorem jobTarget_ryTask : ∃ call,
    invokeMethod sampleApplication "ryTask.ryParams('ry')".toList = some call ∧
      InTaskPackage call.receiver ∧
      ¬ Escapes sampleApplication "ryTask.ryParams('ry')".toList := by
  have haccepted : Accepted sampleApplication (sampleJob "ryTask.ryParams('ry')".toList) :=
    .inl (by decide +kernel)
  have hcall : invokeMethod sampleApplication "ryTask.ryParams('ry')".toList =
      some ⟨"com.ruoyi.quartz.task.RyTask".toList, "ryParams".toList, [.string "ry".toList]⟩ := by
    decide +kernel
  have hin : InTaskPackage "com.ruoyi.quartz.task.RyTask".toList :=
    ⟨taskPackage, by decide +kernel, .inl rfl⟩
  refine ⟨_, hcall, hin, (jobTarget_iff haccepted).mp fun call h => ?_⟩
  rw [show (sampleJob "ryTask.ryParams('ry')".toList).invokeTarget.getD [] =
    "ryTask.ryParams('ry')".toList from rfl, hcall] at h
  cases h
  exact hin

/-- A job is stored whose class is in the package `com.ruoyi.quartz.tasks`. -/
theorem jobTarget_beside : ∃ call,
    Accepted sampleApplication (sampleJob "com.ruoyi.quartz.tasks.Cleaner.clean()".toList) ∧
      invokeMethod sampleApplication "com.ruoyi.quartz.tasks.Cleaner.clean()".toList =
        some call ∧ ¬ InTaskPackage call.receiver := by
  refine ⟨⟨"com.ruoyi.quartz.tasks.Cleaner".toList, "clean".toList, []⟩, .inl ?_, ?_, ?_⟩
  · decide +kernel
  · decide +kernel
  · rw [inTaskPackage_iff]
    decide +kernel

end Example

end PlatformSpec.RuoYi
