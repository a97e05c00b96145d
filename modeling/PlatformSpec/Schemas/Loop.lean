import PlatformSpec.Schemas.Refinement

/-!
# The loop of resolving

What one item of the queue does, what the loop does, and that a call gives what the schema is
expanded to.
-/

namespace PlatformSpec.Schemas

open Base Base.Heap

namespace Resolution

variable {e : Resolution} {root : Nat} {touched : Nat → Prop} {task : Task} {tasks : List Task}
  {p p' : Process}

/-- The resolver of a call. -/
def resolver (e : Resolution) : SchemaResolver := ⟨e.registry, e.maxDepth⟩

variable {content known : Entries} {uri : String} {t schema : Schema}

/-- A circular reference and one to no schema are left, the circular one marked. -/
theorem expandsTask_left_iff
    (hcontent : task.content = .dict content) (href : schemaRef (.dict content) = some uri)
    (hleft : uri ∈ task.item.refPath ∨ e.lookup uri = none) :
    e.ExpandsTask task t ↔
      t = .node (.dict (if uri ∈ task.item.refPath then mark content else content)) := by
  rw [ExpandsTask, hcontent]
  exact expands_left_iff href hleft

theorem expandsTask_behind_iff
    (hcontent : task.content = .dict content) (href : schemaRef (.dict content) = some uri)
    (hpath : uri ∉ task.item.refPath) (hlookup : e.lookup uri = some known) {a : Nat}
    : e.ExpandsTask task t ↔
      (task.item.depth + 1 : Int) < e.maxDepth ∧ e.ExpandsTask (task.behind a uri known) t := by
  rw [ExpandsTask, hcontent]
  exact expands_behind_iff href hpath hlookup

/-- A step of the loop is right: it raises if the task cannot be expanded, and else the tasks it
adds can be expanded if the task can, and the schema will stand for the same. -/
def StepRight (e : Resolution) (root : Nat) (touched : Nat → Prop) (task : Task)
    (tasks : List Task) (p : Process) (out : Option (List QueueItem) × Process) : Prop :=
  (out.1 = none → e.Frame out.2 ∧ ¬ ∃ t, e.ExpandsTask task t) ∧
    ∀ added, out.1 = some added → ∃ touched' new, added = new.map Task.item ∧
      e.Inv root touched' (tasks ++ new) out.2 ∧
      ((∃ t, e.ExpandsTask task t) ↔ ∀ n ∈ new, ∃ t, e.ExpandsTask n t) ∧
      ∀ t, e.Final p.nodes touched (task :: tasks) (.addr root) t →
        e.Final out.2.nodes touched' (tasks ++ new) (.addr root) t

variable {c : Container Value}

theorem Inv.step_enter (hinv : e.Inv root touched (task :: tasks) p) (hs : e.Sound)
    (hc : p.nodes task.item.current = some c)
    (hrelated : c.Related (Holds p.nodes (¬ touched ·)) task.content)
    (hplaces : ∀ y, Ref.addr y ∈ c.children → (y < e.start.next ↔ task.place.within = .shared))
    (href : schemaRef task.content = none) :
    e.StepRight root touched task tasks p (e.resolver.childItems task.item 0 c.children, p) := by
  have hall : List.Forall₂ (Holds p.nodes (¬ touched ·)) c.children task.content.children := by
    refine List.forall₂_iff_get.mpr ⟨Container.length_eq hrelated.1, fun i hi hi' => ?_⟩
    exact hrelated.2 i _ _ (List.getElem?_eq_getElem hi) (List.getElem?_eq_getElem hi')
  obtain ⟨hnone, hsome⟩ := @childItems_spec task _ e.resolver _ _ _ hall 0
  refine ⟨fun h => ⟨hinv.toFrame, ?_⟩, fun added h => ?_⟩
  · rintro ⟨t, ht⟩
    obtain ⟨⟨d, hd⟩, hdeep⟩ := hnone h
    obtain ⟨-, -, hdepth, -⟩ := (expands_inside_iff href).mp ht
    exact absurd (hdepth d hd) (Int.not_lt.mpr hdeep)
  · obtain ⟨hdepth, new, hadded, hmem, hpair⟩ := hsome added h
    have hw : Within e touched task p c new := {
      node := hc
      related := hrelated
      places := hplaces
      mem := fun n => by simpa using hmem n
      distinct := hpair }
    refine ⟨_, new, hadded, hinv.enter hs hw href hdepth, hw.expands_iff href hdepth,
      fun t ht => hinv.final_enter hs hw href hdepth ht fun n hn _ he => ?_⟩
    obtain ⟨j, d, hchild, -⟩ := hw.spec hn
    exact hinv.root_top _ _ (Ref.addr.inj he ▸ hchild)

theorem Inv.step_leave (hinv : e.Inv root touched (task :: tasks) p) (hl : Leaves task p p')
    (hframe : e.Frame p') {d : Container Schema}
    (hexpands : ∀ t, e.ExpandsTask task t ↔ t = .node d)
    (hnode : task.place ≠ .shared → ∃ c, p'.nodes task.item.current = some c ∧
      c.Related (Holds p.nodes (¬ touched ·)) d) :
    e.StepRight root touched task tasks p (some [], p') := by
  refine ⟨fun h => (by cases h), fun added h => ?_⟩
  cases h
  refine ⟨touched, [], rfl, ?_, iff_of_true ⟨_, (hexpands _).mpr rfl⟩ (fun n hn => by cases hn),
    fun t ht => ?_⟩
  · rw [List.append_nil]
    exact hinv.leave hl hframe
  · rw [List.append_nil]
    refine hinv.final_leave hl (fun hplace t' ht' => ?_) ht
    obtain ⟨c, hc, hrelated⟩ := hnode hplace
    exact ⟨c, d, (hexpands t').mp ht', hc, hrelated⟩

theorem Frame.write (hframe : e.Frame p) {a : Nat} (hge : e.start.next ≤ a)
    (hlt : a < p.next) (hc : ∀ y, Ref.addr y ∈ c.children → y < p.next) :
    e.Frame (p.write a c) := by
  refine { hframe with kept := fun b hb => ?_, free := fun b hb => ?_, bound := fun b i y h => ?_ }
  · refine (Function.update_of_ne ?_ _ _).trans (hframe.kept b hb)
    rintro rfl
    exact absurd hb (Nat.not_lt.mpr hge)
  · refine (Function.update_of_ne ?_ _ _).trans (hframe.free b hb)
    rintro rfl
    exact absurd hlt (Nat.not_lt.mpr hb)
  · obtain ⟨c', hc', hi⟩ := child_eq_some.mp h
    by_cases hb : b = a
    · subst hb
      cases (Function.update_self _ _ _).symm.trans hc'
      exact hc y (List.mem_of_getElem? hi)
    · exact hframe.bound b i y
        (child_eq_some.mpr ⟨c', (Function.update_of_ne hb _ _).symm.trans hc', hi⟩)

theorem Frame.alloc (hframe : e.Frame p)
    (hc : ∀ y, Ref.addr y ∈ c.children → y < p.next) : e.Frame (p.alloc c).2 := by
  refine { hframe with
    start_le := Nat.le_succ_of_le hframe.start_le, kept := fun b hb => ?_, free := fun b hb => ?_
    bound := fun b i y h => ?_ }
  · refine (Function.update_of_ne ?_ _ _).trans (hframe.kept b hb)
    rintro rfl
    exact absurd hb (Nat.not_lt.mpr hframe.start_le)
  · refine (Function.update_of_ne ?_ _ _).trans (hframe.free b (Nat.le_of_succ_le hb))
    rintro rfl
    exact absurd hb (Nat.not_succ_le_self _)
  · obtain ⟨c', hc', hi⟩ := child_eq_some.mp h
    refine Nat.lt_succ_of_lt ?_
    by_cases hb : b = p.next
    · subst hb
      cases (Function.update_self _ _ _).symm.trans hc'
      exact hc y (List.mem_of_getElem? hi)
    · exact hframe.bound b i y
        (child_eq_some.mpr ⟨c', (Function.update_of_ne hb _ _).symm.trans hc', hi⟩)

variable {entries : List (String × Value)}

theorem Inv.step_circular (hinv : e.Inv root touched (task :: tasks) p) (hs : e.Sound)
    (hc : p.nodes task.item.current = some (.dict entries))
    (hrelated : (Container.dict entries).Related (Holds p.nodes (¬ touched ·)) (.dict content))
    (hcontent : task.content = .dict content) (href : schemaRef (.dict content) = some uri)
    (hpath : uri ∈ task.item.refPath) :
    e.StepRight root touched task tasks p (some [], p.write task.item.current
      (.dict (Assoc.assign entries "$circular_ref" (.leaf (.bool true))))) := by
  have hmarked := hrelated.assign "$circular_ref" (Holds.leaf (.bool true))
  have hexpands : ∀ t, e.ExpandsTask task t ↔ t = .node (.dict (mark content)) := by
    intro t
    rw [expandsTask_left_iff hcontent href (.inl hpath), if_pos hpath]
  have haddr : ∀ (i y : Nat), ((Assoc.assign entries "$circular_ref"
      (Ref.leaf (Leaf.bool true))).map Prod.snd)[i]? = some (.addr y) →
        (entries.map Prod.snd)[i]? = some (.addr y) := fun i y h =>
    (Assoc.getElem?_of_assign h).resolve_left fun h' => by cases h'
  by_cases hplace : task.place = .shared
  · -- Within a registered schema the reference is marked already.
    have hmeets := hinv.meets task List.mem_cons_self
    rw [hplace, hcontent] at hmeets
    have hmark := (hs.untouched _ _ _ _ hmeets href).1 hpath
    have hlookup : entries.lookup "$circular_ref" = some (.leaf (.bool true)) := by
      have hrel := hrelated.lookup "$circular_ref"
      rw [show content.lookup "$circular_ref" = some (.leaf (.bool true)) from hmark] at hrel
      generalize entries.lookup "$circular_ref" = found at hrel ⊢
      cases hrel with
      | some h => cases h; rfl
    have hsame : p.write task.item.current (.dict (Assoc.assign entries "$circular_ref"
        (.leaf (.bool true)))) = p := by
      rw [Assoc.assign_of_lookup hlookup, Process.write, ← hc, Function.update_eq_self]
    rw [hsame]
    refine hinv.step_leave ⟨rfl, fun _ _ => rfl, fun _ _ _ h => h, fun _ => rfl⟩ hinv.toFrame
      hexpands fun h => absurd hplace h
  · obtain ⟨hge, hlt⟩ := hinv.touched_new _ (hinv.current task List.mem_cons_self hplace)
    have hnodes : ∀ a, a ≠ task.item.current → (p.write task.item.current (.dict (Assoc.assign
        entries "$circular_ref" (.leaf (.bool true))))).nodes a = p.nodes a := fun a ha =>
      Function.update_of_ne ha _ _
    refine hinv.step_leave ⟨rfl, hnodes, fun a i y h => ?_, fun h => absurd h hplace⟩ ?_
      hexpands fun _ => ⟨_, Function.update_self _ _ _, hmarked⟩
    · by_cases ha : a = task.item.current
      · subst ha
        obtain ⟨c', hc', hi⟩ := child_eq_some.mp h
        cases (Function.update_self _ _ _).symm.trans hc'
        exact child_eq_some.mpr ⟨_, hc, haddr i y hi⟩
      · rwa [child, hnodes a ha] at h
    · refine hinv.toFrame.write hge hlt fun y hy => ?_
      obtain ⟨i, hi⟩ := List.mem_iff_getElem?.mp hy
      exact hinv.bound _ i y (child_eq_some.mpr ⟨_, hc, haddr i y hi⟩)

theorem Inv.step_missing (hinv : e.Inv root touched (task :: tasks) p) (hframe : e.Frame p')
    (hstore : p'.toStore = p.toStore) (hc : p.nodes task.item.current = some (.dict entries))
    (hrelated : (Container.dict entries).Related (Holds p.nodes (¬ touched ·)) (.dict content))
    (hcontent : task.content = .dict content) (href : schemaRef (.dict content) = some uri)
    (hpath : uri ∉ task.item.refPath) (hlookup : e.lookup uri = none) :
    e.StepRight root touched task tasks p (some [], p') := by
  have hexpands : ∀ t, e.ExpandsTask task t ↔ t = .node (.dict content) := by
    intro t
    rw [expandsTask_left_iff hcontent href (.inr hlookup), if_neg hpath]
  have hnodes : p'.nodes = p.nodes := by rw [hstore]
  refine hinv.step_leave ⟨by rw [hstore], fun a _ => by rw [hnodes], fun a i y h => ?_,
    fun _ => hnodes⟩ hframe hexpands fun _ => ⟨_, hnodes ▸ hc, hrelated⟩
  rwa [child, hnodes] at h

/-- A reference to a known schema makes way for it, unless the schema is too deep. -/
theorem Inv.step_behind (hinv : e.Inv root touched (task :: tasks) p) (hs : e.Sound)
    (hframe : e.Frame p') (hstore : p'.toStore = p.toStore)
    (hcontent : task.content = .dict content)
    (href : schemaRef (.dict content) = some uri) (hpath : uri ∉ task.item.refPath)
    (hlookup : e.lookup uri = some known)
    (hold : EntriesHold e.start.nodes e.start.next entries known) :
    e.StepRight root touched task tasks p (e.resolver.replaceRef task.item entries uri p') := by
  have hexpands : ∀ a t, e.ExpandsTask task t ↔ (task.item.depth + 1 : Int) < e.maxDepth ∧
      e.ExpandsTask (task.behind a uri known) t := fun _ _ =>
    expandsTask_behind_iff hcontent href hpath hlookup
  have hnodes : p'.nodes = p.nodes := by rw [hstore]
  have hnext : p'.next = p.next := by rw [hstore]
  unfold SchemaResolver.replaceRef
  dsimp only
  split
  next hdeep =>
    refine ⟨fun _ => ⟨hframe, ?_⟩, fun added h => by cases h⟩
    rintro ⟨t, ht⟩
    exact absurd ((hexpands 0 t).mp ht).1 (Int.not_lt.mpr hdeep)
  next hdepth =>
    have hdepth := Int.not_le.mp hdepth
    have hplace := hinv.place_of_behind hs hcontent href hpath hlookup hdepth
    have hmeets : e.Meets .copy (task.item.depth + 1) (uri :: task.item.refPath)
        (.dict known) := by
      have hmeets := hinv.meets task List.mem_cons_self
      rw [hcontent] at hmeets
      exact .behind hmeets href hpath hlookup hdepth
    have hsub : ∀ a t, e.ExpandsTask task t → e.ExpandsTask (task.behind a uri known) t :=
      fun a t ht => ((hexpands a t).mp ht).2
    have hiff : ∀ a, (∃ t, e.ExpandsTask task t) ↔
        ∀ n ∈ [task.behind a uri known], ∃ t, e.ExpandsTask n t := by
      intro a
      rw [List.forall_mem_singleton]
      exact exists_congr fun t => (hexpands a t).trans (and_iff_right hdepth)
    obtain ⟨hge, hlt⟩ := hinv.touched_new _ (hinv.current task List.mem_cons_self hplace)
    have hbound : ∀ y, Ref.addr y ∈ (Container.dict entries).children → y < p'.next := fun y hy =>
      Nat.lt_of_lt_of_le (hold.lt hy) hframe.start_le
    cases hparent : task.item.parent with
    | none =>
      refine ⟨fun h => (by cases h), fun added h => ?_⟩
      cases h
      have hone := hinv.alone task List.mem_cons_self hparent
      have hempty : tasks = [] := (List.cons.inj hone).2
      have hframe' : e.Frame (p'.write task.item.current (.dict entries)) :=
        hframe.write hge (hnext ▸ hlt) hbound
      have hstore' : (p'.write task.item.current (.dict entries)).toStore =
          ⟨Function.update p.nodes task.item.current (some (.dict entries)), p.next⟩ := by
        rw [Process.write, hnodes, hnext]
      refine ⟨touched, [task.behind task.item.current uri known], ?_, ?_, hiff _, fun t ht => ?_⟩
      · rw [List.map_singleton, Task.behind, hparent]
      · rw [hempty, List.nil_append]
        exact hinv.replace_root hplace hparent hold hmeets hframe' hstore'
      · rw [hempty, List.nil_append]
        refine hinv.final_replace_root hplace hparent (fun a ha => ?_) (hsub _) ht
        exact (Function.update_of_ne ha _ _).trans (congrFun hnodes a)
    | some position =>
      obtain ⟨x, k⟩ := position
      show e.StepRight root touched task tasks p
        (some [⟨p'.next, some (x, k), task.item.depth + 1, uri :: task.item.refPath⟩],
          (p'.alloc (.dict entries)).2.assign x k (.addr p'.next))
      refine ⟨fun h => (by cases h), fun added h => ?_⟩
      cases h
      have hx := hinv.parent task List.mem_cons_self hplace x k hparent
      obtain ⟨hxtouched, -, -⟩ := hinv.position task List.mem_cons_self hplace x k hx
      obtain ⟨hxge, hxlt⟩ := hinv.touched_new x hxtouched
      obtain ⟨c, hc, hk⟩ := child_eq_some.mp hx
      have hxne : x ≠ p'.next := hnext ▸ Nat.ne_of_lt hxlt
      have halloc : (p'.alloc (.dict entries)).2.nodes x = some c :=
        (Function.update_of_ne hxne _ _).trans ((congrFun hnodes x).trans hc)
      have hassign : (p'.alloc (.dict entries)).2.assign x k (.addr p'.next) =
          (p'.alloc (.dict entries)).2.write x (c.set k (.addr p'.next)) := by
        rw [Process.assign, halloc]
      rw [hassign]
      have hr : Replaces task entries x k p
          ((p'.alloc (.dict entries)).2.write x (c.set k (.addr p'.next))) := {
        parent := hparent
        next := congrArg (· + 1) hnext
        copied := by
          rw [← hnext]
          exact (Function.update_of_ne hxne.symm _ _).trans (Function.update_self _ _ _)
        assigned := fun c' hc' => by
          cases hc.symm.trans hc'
          rw [← hnext]
          exact Function.update_self _ _ _
        nodes := fun a ha hn => by
          rw [← hnext] at hn
          exact (Function.update_of_ne ha _ _).trans
            ((Function.update_of_ne hn _ _).trans (congrFun hnodes a)) }
      have hframe' : e.Frame ((p'.alloc (.dict entries)).2.write x
          (c.set k (.addr p'.next))) := by
        refine (hframe.alloc hbound).write hxge (Nat.lt_succ_of_lt (hnext ▸ hxlt)) fun y hy => ?_
        rw [Container.children_set] at hy
        rcases List.mem_or_eq_of_mem_set hy with hy | hy
        · obtain ⟨i, hi⟩ := List.mem_iff_getElem?.mp hy
          exact Nat.lt_succ_of_lt (hnext ▸ hinv.bound x i y (child_eq_some.mpr ⟨c, hc, hi⟩))
        · cases hy
          exact Nat.lt_succ_self _
      refine ⟨_, [task.behind p.next uri known], ?_, hinv.replace hplace hr hold hmeets hframe',
        hiff _, fun t ht => hinv.final_replace hplace hr (hsub _) ht fun he => ?_⟩
      · rw [List.map_singleton, Task.behind, hparent, hnext]
      · exact hinv.root_top x k (Ref.addr.inj he ▸ hx)

theorem Inv.step (hinv : e.Inv root touched (task :: tasks) p) (hs : e.Sound) :
    e.StepRight root touched task tasks p (e.resolver.processQueueItem task.item p) := by
  obtain ⟨c, hc, hrelated, hplaces⟩ := hinv.content task List.mem_cons_self
  have hdify := difyRef_of_holds hrelated
  unfold SchemaResolver.processQueueItem
  rw [hc]
  cases c with
  | list items => exact hinv.step_enter hs hc hrelated hplaces (hdify.symm.trans rfl)
  | dict entries =>
    cases href : schemaRef task.content with
    | none =>
      simp only [hdify, href]
      exact hinv.step_enter hs hc hrelated hplaces href
    | some uri =>
      simp only [hdify, href]
      obtain ⟨content, value, hcontent, -⟩ := difyRef_eq_some href
      rw [hcontent] at href hrelated
      unfold SchemaResolver.resolveRef
      by_cases hpath : uri ∈ task.item.refPath
      · rw [if_pos hpath]
        exact hinv.step_circular hs hc hrelated hcontent href hpath
      · rw [if_neg hpath]
        have hmeets := hinv.meets task List.mem_cons_self
        rw [hcontent] at hmeets
        cases hget : p.getResolvedSchema e.registry uri with
        | mk result p₁ =>
          obtain ⟨hstore, hframe, hnone, hsome⟩ := hinv.toFrame.getResolvedSchema hs
            ⟨_, _, _, _, hmeets, href, hpath⟩ hget
          have hget' : p.getResolvedSchema e.resolver.registry uri = (result, p₁) := hget
          rw [hget']
          cases hlookup : e.lookup uri with
          | none =>
            have hleft := hinv.step_missing hframe hstore hc hrelated hcontent href hpath hlookup
            rcases hnone hlookup with rfl | rfl
            · exact hleft
            · exact hleft
          | some known =>
            obtain ⟨resolved, rfl, hne, hold⟩ := hsome known hlookup
            cases resolved with
            | nil => exact absurd rfl hne
            | cons entry resolved =>
              exact hinv.step_behind hs hframe hstore hcontent href hpath hlookup hold

/-- The loop ends without an error if and only if every task can be expanded, and then the schema
stands for what it was to stand for. -/
theorem Inv.drains (hs : e.Sound) {queue : List QueueItem} {out : Bool × Process}
    (hrun : Queue.Drains e.resolver.processQueueItem queue p out)
    (hqueue : queue = tasks.map Task.item) (hinv : e.Inv root touched tasks p) :
    e.Frame out.2 ∧ (out.1 = true ↔ ∀ task ∈ tasks, ∃ t, e.ExpandsTask task t) ∧
      (out.1 = true → ∀ t, e.Final p.nodes touched tasks (.addr root) t →
        Holds out.2.nodes (fun _ => True) (.addr root) t) := by
  induction hrun generalizing tasks touched with
  | done s =>
    cases List.map_eq_nil_iff.mp hqueue.symm
    exact ⟨hinv.toFrame, iff_of_true rfl (fun _ h => by cases h), fun _ t ht => ht.holds⟩
  | @raise item queue s s' h =>
    obtain ⟨task, rest, rfl, rfl, rfl⟩ := List.map_eq_cons_iff.mp hqueue.symm
    have hstep := (hinv.step hs).1
    rw [h] at hstep
    obtain ⟨hframe, hnone⟩ := hstep rfl
    refine ⟨hframe, iff_of_false Bool.false_ne_true fun hall => ?_, fun h' => by cases h'⟩
    exact hnone (hall task List.mem_cons_self)
  | @next item queue added s s' out h _ ih =>
    obtain ⟨task, rest, rfl, rfl, rfl⟩ := List.map_eq_cons_iff.mp hqueue.symm
    have hstep := (hinv.step hs).2
    rw [h] at hstep
    obtain ⟨touched', new, rfl, hinv', hexpands, hfinal⟩ := hstep added rfl
    obtain ⟨hframe, hiff, hholds⟩ := ih List.map_append.symm hinv'
    refine ⟨hframe, hiff.trans ?_, fun hout t ht => hholds hout t (hfinal t ht)⟩
    rw [List.forall_mem_append, List.forall_mem_cons, hexpands, and_comm]

variable {r : SchemaResolver}

theorem depth_of_processQueueItem {item : QueueItem}
    {added : List QueueItem} (h : r.processQueueItem item p = (some added, p')) :
    ∀ new ∈ added, new.depth = item.depth + 1 ∧ (item.depth + 1 : Int) < r.maxDepth := by
  have hchildren : ∀ i values added, r.childItems item i values = some added →
      ∀ new ∈ added, new.depth = item.depth + 1 ∧ (item.depth + 1 : Int) < r.maxDepth := by
    intro i values
    induction values generalizing i with
    | nil =>
      intro added h new hnew
      cases h
      cases hnew
    | cons v values ih =>
      cases v with
      | leaf l => exact fun added h => ih (i + 1) added h
      | addr a =>
        intro added h new hnew
        unfold SchemaResolver.childItems at h
        split at h
        next => cases h
        next hdepth =>
          obtain ⟨later, hlater, rfl⟩ := Option.map_eq_some_iff.mp h
          rcases List.mem_cons.mp hnew with rfl | hnew
          · exact ⟨rfl, Int.not_le.mp hdepth⟩
          · exact ih (i + 1) later hlater new hnew
  have hreplace : ∀ entries uri p₁, r.replaceRef item entries uri p₁ = (some added, p') →
      ∀ new ∈ added, new.depth = item.depth + 1 ∧ (item.depth + 1 : Int) < r.maxDepth := by
    intro entries uri p₁ h new hnew
    unfold SchemaResolver.replaceRef at h
    dsimp only at h
    split at h
    next => cases h
    next hdepth =>
      split at h
      all_goals
        cases h
        cases List.mem_singleton.mp hnew
        exact ⟨rfl, Int.not_le.mp hdepth⟩
  unfold SchemaResolver.processQueueItem at h
  split at h
  next =>
    cases h
    exact fun new hnew => by cases hnew
  next entries _ =>
    split at h
    next uri _ =>
      unfold SchemaResolver.resolveRef at h
      split at h
      next =>
        cases h
        exact fun new hnew => by cases hnew
      next =>
        split at h
        next =>
          cases h
          exact fun new hnew => by cases hnew
        next =>
          cases h
          exact fun new hnew => by cases hnew
        next p₁ _ _ => exact hreplace _ uri _ h
    next => exact hchildren 0 _ added (Prod.mk.inj h).1
  next => exact hchildren 0 _ added (Prod.mk.inj h).1

/-- The process with the copy that the loop starts with. -/
def copied (e : Resolution) : Process := (e.start.build e.schema).2

theorem frame_copied (hstart : e.Frame e.start) : e.Frame e.copied := by
  have hbuilt := built_build e.schema e.start.toStore
  have hkept : ∀ a, ¬ Between e.start.toStore e.copied.toStore a →
      e.copied.nodes a = e.start.nodes a := hbuilt.kept
  refine { hstart with
    start_le := hbuilt.next_le, kept := fun a ha => hkept a fun h => absurd ha (Nat.not_lt.mpr h.1)
    free := fun a ha => ?_, bound := fun a i y h => ?_ }
  · rw [hkept a fun h => absurd h.2 (Nat.not_lt.mpr ha)]
    exact hstart.free a (Nat.le_trans hbuilt.next_le ha)
  · by_cases ha : Between e.start.toStore e.copied.toStore a
    · exact (hbuilt.inside a i y ha h).2
    · rw [child, hkept a ha] at h
      exact Nat.lt_of_lt_of_le (hstart.bound a i y h) hbuilt.next_le

theorem inv_copied (hstart : e.Frame e.start) {c : Container Schema} (hc : e.schema = .node c)
    (hroot : (e.start.build e.schema).1 = .addr root) :
    e.Inv root (· = root) [⟨⟨root, none, 0, []⟩, .own, c⟩] e.copied := by
  have hbuilt := built_build e.schema e.start.toStore
  have hroot' : (Heap.build e.schema e.start.toStore).1 = .addr root := hroot
  rw [hroot'] at hbuilt
  have hkept : ∀ a, ¬ Between e.start.toStore e.copied.toStore a →
      e.copied.nodes a = e.start.nodes a := hbuilt.kept
  have hnew : Between e.start.toStore e.copied.toStore root :=
    hbuilt.new root (List.mem_singleton_self _)
  have hold : ∀ a i y, ¬ Between e.start.toStore e.copied.toStore a →
      child e.copied.nodes a i = some (.addr y) → y < e.start.next := by
    intro a i y ha h
    rw [child, hkept a ha] at h
    exact hstart.bound a i y h
  have hbetween : ∀ a i y, e.start.next ≤ a → child e.copied.nodes a i = some (.addr y) →
      Between e.start.toStore e.copied.toStore a := by
    intro a i y ha h
    by_contra hnot
    rw [child, hkept a hnot, hstart.free a ha] at h
    cases h
  have htop : ∀ a i, child e.copied.nodes a i ≠ some (.addr root) := by
    intro a i h
    by_cases ha : Between e.start.toStore e.copied.toStore a
    · exact hbuilt.top root (List.mem_singleton_self _) a i ha h
    · exact absurd (hold a i root ha h) (Nat.not_lt.mpr hnew.1)
  refine { frame_copied hstart with
    touched_new := ?_, root_touched := rfl, root_top := htop, unique := ?_, own := ?_
    meets := ?_, content := ?_, place := ?_, current := ?_, position := ?_, parent := ?_
    alone := ?_, distinct := List.pairwise_singleton _ _ }
  · rintro a rfl
    exact hnew
  · intro a i a' i' y hy h h'
    have hin : ∀ b j, child e.copied.nodes b j = some (.addr y) →
        Between e.start.toStore e.copied.toStore b := by
      intro b j hb
      by_contra hnot
      exact absurd (hold b j y hnot hb) (Nat.not_lt.mpr hy)
    exact hbuilt.unique a i a' i' y (hin a i h) (hin a' i' h') h h'
  · intro a i y ha _ h
    exact (hbuilt.inside a i y (hbetween a i y ha h) h).1
  · intro task htask
    cases List.mem_singleton.mp htask
    exact .root hc
  · intro task htask
    cases List.mem_singleton.mp htask
    obtain ⟨hholds, -⟩ := List.forall₂_cons.mp hbuilt.holds
    obtain ⟨-, c', d, hc', hd, hrelated⟩ := hholds.related
    cases hc.symm.trans hd
    refine ⟨c', hc', hrelated.imp fun v hv t ht => ?_, fun y hy => ?_⟩
    · refine (ht.avoid (· = root) fun y hy => ?_).imp fun a _ hok hc => ⟨hok.2, hc⟩
      subst hy
      refine ⟨?_, fun a i h => absurd h (htop a i)⟩
      rintro rfl
      obtain ⟨i, hi⟩ := List.mem_iff_getElem?.mp hv
      exact htop y i (child_eq_some.mpr ⟨c', hc', hi⟩)
    · obtain ⟨i, hi⟩ := List.mem_iff_getElem?.mp hy
      have hin := hbuilt.inside root i y hnew (child_eq_some.mpr ⟨c', hc', hi⟩)
      exact iff_of_false (Nat.not_lt.mpr hin.1) (fun h => by cases h)
  · intro task htask
    cases List.mem_singleton.mp htask
    exact iff_of_false (Nat.not_lt.mpr hnew.1) (fun h => by cases h)
  · intro task htask _
    cases List.mem_singleton.mp htask
    rfl
  · intro task htask _ a i h
    cases List.mem_singleton.mp htask
    exact absurd h (htop a i)
  · intro task htask _ a i h
    cases List.mem_singleton.mp htask
    cases h
  · intro task htask _
    cases List.mem_singleton.mp htask
    rfl

theorem resolve_of_no_refs
    (h : hasDifyRefs schema = false) : r.resolve schema p = (some (p.build schema).1,
      (p.build schema).2) := by
  unfold SchemaResolver.resolve
  simp only [h, Bool.not_false, if_true]

theorem resolve_of_refs (h : hasDifyRefs schema = true)
    (hroot : (p.build schema).1 = .addr root) : r.resolve schema p =
      (if (Queue.drain r.processQueueItem (r.maxDepth.toNat + 1) [⟨root, none, 0, []⟩]
          (p.build schema).2).1 = true then some (.addr root) else none,
        (Queue.drain r.processQueueItem (r.maxDepth.toNat + 1) [⟨root, none, 0, []⟩]
          (p.build schema).2).2) := by
  unfold SchemaResolver.resolve
  simp only [h, hroot, Bool.not_true, Bool.false_eq_true, if_false]
  split
  next heq => rw [heq]; rfl
  next heq => rw [heq]; rfl

/-- What a call gives: the schema itself if there is no reference in it, else what it is expanded
to, if it can be. -/
theorem resolve_spec (hs : e.Sound) (hstart : e.Frame e.start) :
    e.Frame (e.resolver.resolve e.schema e.start).2 ∧
      (hasDifyRefs e.schema = false → ∃ v, (e.resolver.resolve e.schema e.start).1 = some v ∧
        Holds (e.resolver.resolve e.schema e.start).2.nodes (fun _ => True) v e.schema) ∧
      (hasDifyRefs e.schema = true → ∀ c, e.schema = .node c →
        ((e.resolver.resolve e.schema e.start).1 = none ↔ ¬ ∃ t, e.Expands 0 [] c t) ∧
        ∀ t, e.Expands 0 [] c t → ∃ v, (e.resolver.resolve e.schema e.start).1 = some v ∧
          Holds (e.resolver.resolve e.schema e.start).2.nodes (fun _ => True) v t) := by
  have hbuilt := built_build e.schema e.start.toStore
  obtain ⟨hholds, -⟩ := List.forall₂_cons.mp hbuilt.holds
  cases hrefs : hasDifyRefs e.schema with
  | false =>
    rw [resolve_of_no_refs hrefs]
    refine ⟨frame_copied hstart, fun _ => ⟨_, rfl, ?_⟩, fun h => by cases h⟩
    exact hholds.imp fun a c _ hc => ⟨trivial, hc⟩
  | true =>
    obtain ⟨c, hc⟩ := exists_container hrefs
    have hroot : ∃ root, (e.start.build e.schema).1 = .addr root := by
      have hnode : Holds _ _ (e.start.build e.schema).1 e.schema := hholds
      rw [hc] at hnode ⊢
      cases hv : (e.start.build (.node c)).1 with
      | leaf l =>
        rw [hv] at hnode
        cases hnode
      | addr root => exact ⟨root, rfl⟩
    obtain ⟨root, hroot⟩ := hroot
    have hinv := inv_copied hstart hc hroot
    have hdrains : Queue.Drains e.resolver.processQueueItem [⟨root, none, 0, []⟩] e.copied
        (Queue.drain e.resolver.processQueueItem (e.resolver.maxDepth.toNat + 1)
          [⟨root, none, 0, []⟩] e.copied) := by
      refine Queue.drains_drain (fun item => (e.resolver.maxDepth - item.depth).toNat) ?_ ?_
      · intro item p added p' h new hnew
        obtain ⟨hdepth, hlt⟩ := depth_of_processQueueItem h new hnew
        rw [hdepth]
        omega
      · intro item hitem
        cases List.mem_singleton.mp hitem
        exact Nat.lt_succ_of_le (Int.toNat_le_toNat (by simp))
    obtain ⟨hframe, hiff, hfinal⟩ := Inv.drains hs hdrains (List.map_singleton ..).symm hinv
    rw [List.forall_mem_singleton] at hiff
    have hpending : ∀ t, e.Expands 0 [] c t →
        e.Final e.copied.nodes (· = root) [⟨⟨root, none, 0, []⟩, .own, c⟩] (.addr root) t :=
      fun t ht => .pending ⟨⟨root, none, 0, []⟩, .own, c⟩ (List.mem_singleton_self _)
        (fun h => by cases h) ht
    rw [resolve_of_refs hrefs hroot]
    refine ⟨hframe, fun h => (by cases h), fun _ d hd => ?_⟩
    cases hc.symm.trans hd
    refine ⟨?_, fun t ht => ?_⟩
    · rw [ite_eq_right_iff, ← hiff]
      exact ⟨fun h h' => (by cases h h'), fun h h' => absurd h' h⟩
    · have hfinished := hiff.mpr ⟨t, ht⟩
      exact ⟨_, if_pos hfinished, hfinal hfinished t (hpending t ht)⟩

end Resolution

end PlatformSpec.Schemas
