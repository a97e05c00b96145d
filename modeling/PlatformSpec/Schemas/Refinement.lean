import PlatformSpec.Schemas.Resolution

/-!
# Resolving expands references

The loop of `SchemaResolver.resolve` against the expansion of a schema, for calls that leave what
is within registered schemas untouched. Addresses are touched from when they come into the queue;
below what waits in the queue nothing is touched, and nothing else refers to it.
-/

namespace PlatformSpec.Schemas

open Base Base.Heap

/-- An item of the queue with its place and the schema that it stands for. -/
structure Task where
  item : QueueItem
  place : Place
  content : Container Schema

/-- The task for a value at a place within a task's schema. -/
def Task.within (task : Task) (i a : Nat) (c : Container Schema) : Task :=
  ⟨⟨a, some (task.item.current, i), task.item.depth + 1, task.item.refPath⟩, task.place.within, c⟩

/-- The task for the schema that a task refers to, at another address or at its own. -/
def Task.behind (task : Task) (a : Nat) (uri : String) (content : Entries) : Task :=
  ⟨⟨a, task.item.parent, task.item.depth + 1, uri :: task.item.refPath⟩, .copy, .dict content⟩

namespace Resolution

variable (e : Resolution)

/-- The schema of a task is expanded. -/
abbrev ExpandsTask (task : Task) (t : Schema) : Prop :=
  e.Expands task.item.depth task.item.refPath task.content t

/-- The invariant of the loop: what waits in the queue is met and stands for its schema; below it
nothing is touched; what waits in the caller's copy or in a copy of a registered schema waits once
and is referred to once, from its parent, which does not wait itself. -/
structure Inv (root : Nat) (touched : Nat → Prop) (tasks : List Task) (p : Process) : Prop
    extends e.Frame p where
  touched_new : ∀ a, touched a → e.start.next ≤ a ∧ a < p.next
  root_touched : touched root
  root_top : ∀ a i, child p.nodes a i ≠ some (.addr root)
  unique : ∀ a i a' i' y, e.start.next ≤ y → child p.nodes a i = some (.addr y) →
    child p.nodes a' i' = some (.addr y) → a = a' ∧ i = i'
  own : ∀ a i y, e.start.next ≤ a → ¬ touched a → child p.nodes a i = some (.addr y) →
    e.start.next ≤ y
  meets : ∀ task ∈ tasks, e.Meets task.place task.item.depth task.item.refPath task.content
  content : ∀ task ∈ tasks, ∃ c, p.nodes task.item.current = some c ∧
    c.Related (Holds p.nodes (¬ touched ·)) task.content ∧
    ∀ y, Ref.addr y ∈ c.children → (y < e.start.next ↔ task.place.within = .shared)
  place : ∀ task ∈ tasks, task.item.current < e.start.next ↔ task.place = .shared
  current : ∀ task ∈ tasks, task.place ≠ .shared → touched task.item.current
  position : ∀ task ∈ tasks, task.place ≠ .shared →
    ∀ a i, child p.nodes a i = some (.addr task.item.current) →
      touched a ∧ (∀ other ∈ tasks, other.item.current ≠ a) ∧ task.item.parent = some (a, i)
  parent : ∀ task ∈ tasks, task.place ≠ .shared → ∀ a i, task.item.parent = some (a, i) →
    child p.nodes a i = some (.addr task.item.current)
  alone : ∀ task ∈ tasks, task.item.parent = none → tasks = [task]
  distinct : tasks.Pairwise fun s t => s.item.current = t.item.current → s.place = .shared

/-- What a reference will stand for when the queue is empty. -/
inductive Final (h : Nodes Leaf) (touched : Nat → Prop) (tasks : List Task) :
    Value → Schema → Prop
  | kept {v : Value} {t : Schema} (hold : Holds h (¬ touched ·) v t) : Final h touched tasks v t
  | pending (task : Task) {t : Schema} (hmem : task ∈ tasks) (hplace : task.place ≠ .shared)
      (hexpands : e.ExpandsTask task t) : Final h touched tasks (.addr task.item.current) t
  | done {a : Nat} {c : Container Value} {d : Container Schema} (htouched : touched a)
      (hdone : ∀ task ∈ tasks, task.item.current ≠ a) (hc : h a = some c)
      (hshape : c.shape = d.shape)
      (hchildren : ∀ (i : Nat) (v : Value) (t : Schema), c.children[i]? = some v →
        d.children[i]? = some t → Final h touched tasks v t) :
      Final h touched tasks (.addr a) (.node d)

variable {e} {root : Nat} {touched : Nat → Prop} {task : Task} {tasks : List Task}
  {p p' : Process}

/-- Of an item that waits in no registered schema the task says what it will stand for. -/
theorem Inv.expands_of_final (hinv : e.Inv root touched (task :: tasks) p)
    (hplace : task.place ≠ .shared) {t : Schema}
    (h : e.Final p.nodes touched (task :: tasks) (.addr task.item.current) t) :
    e.ExpandsTask task t := by
  have hcurrent := hinv.current task List.mem_cons_self hplace
  generalize hv : Ref.addr task.item.current = v at h
  cases h with
  | kept hold =>
    subst hv
    exact absurd hcurrent hold.related.1
  | @pending other t hmem _ hexpands =>
    have hsame : task.item.current = other.item.current := Ref.addr.inj hv
    rcases List.mem_cons.mp hmem with rfl | hmem
    · exact hexpands
    · exact absurd ((List.pairwise_cons.mp hinv.distinct).1 other hmem hsame) hplace
  | done _ hdone =>
    cases hv
    exact absurd rfl (hdone task List.mem_cons_self)

variable {h : Nodes Leaf}

theorem Final.holds {v : Value} {t : Schema} (hf : e.Final h touched [] v t) :
    Holds h (fun _ => True) v t := by
  induction hf with
  | kept hold => exact hold.imp fun a c _ hc => ⟨trivial, hc⟩
  | pending _ hmem => cases hmem
  | done _ _ hc hshape _ ih => exact .node trivial hc hshape ih

/-- A dictionary or list is related to its schema: both have the same reference. -/
theorem difyRef_of_holds {ok : Nat → Prop} {c : Container Value}
    {d : Container Schema} (hrelated : c.Related (Holds h ok) d) :
    difyRef Ref.leaf? c = schemaRef d :=
  difyRef_eq (hrelated.imp fun _ _ _ ht => ht.leaf?)

/-- The items that the loop over the values adds are those of the lists and dictionaries among
them, and it raises if there are any below the last level. -/
theorem childItems_spec {r : SchemaResolver} {ok : Nat → Prop}
    {values : List Value} {schemas : List Schema} (hall : List.Forall₂ (Holds h ok) values schemas)
    (i : Nat) : (r.childItems task.item i values = none →
      (∃ c, Heap.Tree.node c ∈ schemas) ∧ r.maxDepth ≤ task.item.depth + 1) ∧
    ∀ added, r.childItems task.item i values = some added →
      (∀ c, Heap.Tree.node c ∈ schemas → (task.item.depth + 1 : Int) < r.maxDepth) ∧
      ∃ new : List Task, added = new.map Task.item ∧
        (∀ n, n ∈ new ↔ ∃ j a c, values[j]? = some (.addr a) ∧ schemas[j]? = some (.node c) ∧
          n = task.within (i + j) a c) ∧ new.Pairwise fun m n => m.item.parent ≠ n.item.parent := by
  induction hall generalizing i with
  | nil =>
    refine ⟨fun hnone => by simp [SchemaResolver.childItems] at hnone, fun added hadded => ?_⟩
    cases hadded
    exact ⟨fun c hc => (by cases hc), [], rfl, fun n => (by simp), .nil⟩
  | @cons v t values schemas hvt _ ih =>
    cases hvt with
    | leaf l =>
      obtain ⟨hnone, hsome⟩ := ih (i + 1)
      refine ⟨fun h' => ?_, fun added h' => ?_⟩
      · obtain ⟨⟨c, hc⟩, hdeep⟩ := hnone h'
        exact ⟨⟨c, List.mem_cons_of_mem _ hc⟩, hdeep⟩
      · obtain ⟨hdepth, new, rfl, hmem, hpair⟩ := hsome added h'
        refine ⟨fun c hc => ?_, new, rfl, fun n => ?_, hpair⟩
        · rcases List.mem_cons.mp hc with hc | hc
          · cases hc
          · exact hdepth c hc
        · rw [hmem n]
          constructor
          · rintro ⟨j, a, c, hv, ht, rfl⟩
            exact ⟨j + 1, a, c, hv, ht, by rw [Nat.add_right_comm, Nat.add_assoc]⟩
          · rintro ⟨j, a, c, hv, ht, rfl⟩
            cases j with
            | zero => cases hv
            | succ j => exact ⟨j, a, c, hv, ht, by rw [Nat.add_right_comm, Nat.add_assoc]⟩
    | @node a c' d hok hc' hshape hchildren =>
      simp only [SchemaResolver.childItems]
      by_cases hdeep : r.maxDepth ≤ task.item.depth + 1
      · rw [if_pos hdeep]
        refine ⟨fun _ => ⟨⟨d, List.mem_cons_self⟩, hdeep⟩, fun added h' => by cases h'⟩
      · rw [if_neg hdeep]
        obtain ⟨hnone, hsome⟩ := ih (i + 1)
        refine ⟨fun h' => ?_, fun added h' => ?_⟩
        · obtain ⟨-, hdeep'⟩ := hnone (Option.map_eq_none_iff.mp h')
          exact absurd hdeep' hdeep
        · obtain ⟨later, hlater, rfl⟩ := Option.map_eq_some_iff.mp h'
          obtain ⟨hdepth, new, rfl, hmem, hpair⟩ := hsome later hlater
          refine ⟨fun _ _ => Int.not_le.mp hdeep, task.within i a d :: new, rfl, fun n => ?_,
            .cons (fun n hn => ?_) hpair⟩
          · rw [List.mem_cons, hmem n]
            constructor
            · rintro (rfl | ⟨j, a', c, hv, ht, rfl⟩)
              · exact ⟨0, a, d, rfl, rfl, rfl⟩
              · exact ⟨j + 1, a', c, hv, ht, by rw [Nat.add_right_comm, Nat.add_assoc]⟩
            · rintro ⟨j, a', c, hv, ht, rfl⟩
              cases j with
              | zero =>
                cases hv
                cases ht
                exact .inl rfl
              | succ j => exact .inr ⟨j, a', c, hv, ht, by rw [Nat.add_right_comm, Nat.add_assoc]⟩
          · obtain ⟨j, a', c, -, -, rfl⟩ := (hmem n).mp hn
            intro heq
            have := (Prod.mk.inj (Option.some.inj heq)).2
            omega

/-- The tasks for the lists and dictionaries within a task's schema. -/
structure Within (e : Resolution) (touched : Nat → Prop) (task : Task) (p : Process)
    (c : Container Value) (new : List Task) : Prop where
  node : p.nodes task.item.current = some c
  related : c.Related (Holds p.nodes (¬ touched ·)) task.content
  places : ∀ y, Ref.addr y ∈ c.children → (y < e.start.next ↔ task.place.within = .shared)
  mem : ∀ n, n ∈ new ↔ ∃ j a d, c.children[j]? = some (.addr a) ∧
    task.content.children[j]? = some (.node d) ∧ n = task.within j a d
  distinct : new.Pairwise fun m n => m.item.parent ≠ n.item.parent

/-- Addresses that are touched when tasks come into the queue. -/
def TouchedBy (touched : Nat → Prop) (new : List Task) (a : Nat) : Prop :=
  touched a ∨ ∃ n ∈ new, n.place ≠ .shared ∧ n.item.current = a

/-- What is within the caller's copy is not in a registered schema, and neither is what it is
within. -/
theorem Place.ne_of_within {place : Place} (h : place.within ≠ .shared) : place ≠ .shared := by
  rintro rfl
  exact h rfl

section Enter

variable {c : Container Value} {new : List Task}

/-- A task within refers to its parent, and nothing at its address was touched. -/
theorem Within.spec (hw : Within e touched task p c new) {n : Task} (hn : n ∈ new) :
    ∃ j d, child p.nodes task.item.current j = some (.addr n.item.current) ∧
      task.content.children[j]? = some (.node d) ∧ n = task.within j n.item.current d ∧
      Holds p.nodes (¬ touched ·) (.addr n.item.current) (.node d) ∧
      (n.item.current < e.start.next ↔ n.place = .shared) := by
  obtain ⟨j, a, d, ha, hd, rfl⟩ := (hw.mem n).mp hn
  exact ⟨j, d, child_eq_some.mpr ⟨c, hw.node, ha⟩, hd, rfl, hw.related.2 j _ _ ha hd,
    hw.places a (List.mem_of_getElem? ha)⟩

/-- Only the parent of a task within refers to it, unless it is in a registered schema. -/
theorem Inv.parent_of_within (hinv : e.Inv root touched (task :: tasks) p)
    (hw : Within e touched task p c new) {n : Task} (hn : n ∈ new) (hplace : n.place ≠ .shared)
    {a i : Nat} (hchild : child p.nodes a i = some (.addr n.item.current)) :
    a = task.item.current ∧ n.item.parent = some (a, i) ∧ touched a ∧ task.place ≠ .shared := by
  obtain ⟨j, d, hj, -, hn', -, hbase⟩ := hw.spec hn
  have hge : e.start.next ≤ n.item.current := Nat.not_lt.mp fun hlt => hplace (hbase.mp hlt)
  obtain ⟨rfl, rfl⟩ := hinv.unique a i _ _ _ hge hchild hj
  have hwithin : task.place.within ≠ .shared := by
    rw [hn'] at hplace
    exact hplace
  have hown := Place.ne_of_within hwithin
  exact ⟨rfl, by rw [hn']; rfl, hinv.current task List.mem_cons_self hown, hown⟩

/-- What is below untouched addresses stays so when tasks come into the queue, unless it is one
of them. -/
theorem Inv.holds_of_within (hinv : e.Inv root touched (task :: tasks) p)
    (hw : Within e touched task p c new) {v : Value} {t : Schema}
    (hold : Holds p.nodes (¬ touched ·) v t)
    (hv : ∀ n ∈ new, n.place ≠ .shared → v ≠ .addr n.item.current) :
    Holds p.nodes (¬ TouchedBy touched new ·) v t := by
  refine (hold.avoid (fun a => ∃ n ∈ new, n.place ≠ .shared ∧ n.item.current = a) ?_).imp ?_
  · rintro y ⟨n, hn, hplace, rfl⟩
    refine ⟨hv n hn hplace, fun a i hchild hnot => ?_⟩
    exact hnot (hinv.parent_of_within hw hn hplace hchild).2.2.1
  · rintro a c' ⟨hnot, hnew⟩ hc'
    exact ⟨fun h => h.elim hnot hnew, hc'⟩

/-- No task but this one waits at its address, if it is not in a registered schema. -/
theorem Inv.current_ne (hinv : e.Inv root touched (task :: tasks) p) (hplace : task.place ≠ .shared)
    {other : Task} (hother : other ∈ tasks) : other.item.current ≠ task.item.current := fun he =>
  hplace ((List.pairwise_cons.mp hinv.distinct).1 other hother he.symm)

/-- The invariant is kept when a task that is no reference makes way for the tasks within. -/
theorem Inv.enter (hinv : e.Inv root touched (task :: tasks) p) (hs : e.Sound)
    (hw : Within e touched task p c new) (href : schemaRef task.content = none)
    (hdepth : ∀ d, Heap.Tree.node d ∈ task.content.children →
      (task.item.depth + 1 : Int) < e.maxDepth) :
    e.Inv root (TouchedBy touched new) (tasks ++ new) p := by
  have hspec := fun n hn => hw.spec (n := n) hn
  have huntouched : ∀ n ∈ new, ¬ touched n.item.current := by
    intro n hn
    obtain ⟨j, d, -, -, -, hold, -⟩ := hspec n hn
    exact hold.related.1
  have hnot : ∀ a, touched a → ∀ n ∈ new, n.item.current ≠ a := by
    rintro a ha n hn rfl
    exact huntouched n hn ha
  have hold : ∀ s ∈ tasks, s ∈ task :: tasks := fun s hs' => List.mem_cons_of_mem _ hs'
  refine { hinv.toFrame with
    touched_new := ?_, root_touched := .inl hinv.root_touched, root_top := hinv.root_top
    unique := hinv.unique, own := ?_, meets := ?_, content := ?_, place := ?_, current := ?_
    position := ?_, parent := ?_, alone := ?_, distinct := ?_ }
  · rintro a (ha | ⟨n, hn, hplace, rfl⟩)
    · exact hinv.touched_new a ha
    · obtain ⟨j, d, hchild, -, -, -, hbase⟩ := hspec n hn
      exact ⟨Nat.not_lt.mp fun hlt => hplace (hbase.mp hlt), hinv.bound _ _ _ hchild⟩
  · intro a i y ha hnt hchild
    exact hinv.own a i y ha (fun h => hnt (.inl h)) hchild
  · intro s hsmem
    rcases List.mem_append.mp hsmem with hsmem | hsmem
    · exact hinv.meets s (hold s hsmem)
    · obtain ⟨j, d, -, hd, he, -, -⟩ := hspec s hsmem
      have hmem := List.mem_of_getElem? hd
      rw [he]
      exact .inside (hinv.meets task List.mem_cons_self) href hmem (hdepth d hmem)
  · intro s hsmem
    rcases List.mem_append.mp hsmem with hsmem | hsmem
    · obtain ⟨cs, hcs, hrel, hplaces⟩ := hinv.content s (hold s hsmem)
      refine ⟨cs, hcs, hrel.imp fun v hv t ht => ?_, hplaces⟩
      refine hinv.holds_of_within hw ht fun n hn hplace he => ?_
      obtain ⟨i, hi⟩ := List.mem_iff_getElem?.mp hv
      obtain ⟨hsame, -, -, hown⟩ := hinv.parent_of_within hw hn hplace
        (child_eq_some.mpr ⟨cs, hcs, he ▸ hi⟩)
      exact hinv.current_ne hown hsmem hsame
    · obtain ⟨j, d, hchild, hd, he, hholds, hbase⟩ := hspec s hsmem
      obtain ⟨hnt, cs, d', hcs, hd', hrel⟩ := hholds.related
      cases hd'
      rw [he]
      refine ⟨cs, hcs, hrel.imp fun v hv t ht => ?_, fun y hy => ?_⟩
      · refine hinv.holds_of_within hw ht fun n hn hplace hvn => ?_
        obtain ⟨i, hi⟩ := List.mem_iff_getElem?.mp hv
        obtain ⟨-, -, htouched, -⟩ := hinv.parent_of_within hw hn hplace
          (child_eq_some.mpr ⟨cs, hcs, hvn ▸ hi⟩)
        exact hnt htouched
      · obtain ⟨i, hi⟩ := List.mem_iff_getElem?.mp hy
        have hy' := child_eq_some.mpr ⟨cs, hcs, hi⟩
        have hplace : s.place = task.place.within := by rw [he]; rfl
        show y < e.start.next ↔ task.place.within.within = .shared
        rw [← hplace]
        cases hp : s.place with
        | own =>
          have hge : e.start.next ≤ s.item.current :=
            Nat.not_lt.mp fun hlt => by simpa [hp] using hbase.mp hlt
          exact iff_of_false (Nat.not_lt.mpr (hinv.own _ i y hge hnt hy')) (by decide)
        | copy => cases htp : task.place <;> simp [htp, hp, Place.within] at hplace
        | shared =>
          have hlt := hbase.mpr hp
          have hnode : child e.start.nodes s.item.current i = some (.addr y) := by
            rw [← hy', child, child, hinv.kept _ hlt]
          exact iff_of_true (hs.bound _ i y hnode) rfl
  · intro s hsmem
    rcases List.mem_append.mp hsmem with hsmem | hsmem
    · exact hinv.place s (hold s hsmem)
    · obtain ⟨j, d, -, -, -, -, hbase⟩ := hspec s hsmem
      exact hbase
  · intro s hsmem hplace
    rcases List.mem_append.mp hsmem with hsmem | hsmem
    · exact .inl (hinv.current s (hold s hsmem) hplace)
    · exact .inr ⟨s, hsmem, hplace, rfl⟩
  · intro s hsmem hplace a i hchild
    rcases List.mem_append.mp hsmem with hsmem | hsmem
    · obtain ⟨ha, hothers, hparent⟩ := hinv.position s (hold s hsmem) hplace a i hchild
      refine ⟨.inl ha, fun other hother => ?_, hparent⟩
      rcases List.mem_append.mp hother with hother | hother
      · exact hothers other (hold other hother)
      · exact hnot a ha other hother
    · obtain ⟨rfl, hparent, ha, hown⟩ := hinv.parent_of_within hw hsmem hplace hchild
      refine ⟨.inl ha, fun other hother => ?_, hparent⟩
      rcases List.mem_append.mp hother with hother | hother
      · exact hinv.current_ne hown hother
      · exact hnot _ ha other hother
  · intro s hsmem hplace a i hparent
    rcases List.mem_append.mp hsmem with hsmem | hsmem
    · exact hinv.parent s (hold s hsmem) hplace a i hparent
    · obtain ⟨j, d, hchild, -, he, -, -⟩ := hspec s hsmem
      rw [he] at hparent
      cases hparent
      exact hchild
  · intro s hsmem hparent
    rcases List.mem_append.mp hsmem with hsmem | hsmem
    · have hone := hinv.alone s (hold s hsmem) hparent
      rw [(List.cons.inj hone).2] at hsmem
      cases hsmem
    · obtain ⟨j, d, -, -, he, -, -⟩ := hspec s hsmem
      rw [he] at hparent
      cases hparent
  · refine List.pairwise_append.mpr ⟨(List.pairwise_cons.mp hinv.distinct).2, ?_, ?_⟩
    · refine hw.distinct.imp_of_mem fun {m n} hm hn hparent he => ?_
      by_contra hplace
      obtain ⟨j, d, hchild, -, hn', -, -⟩ := hspec n hn
      rw [← he] at hchild
      obtain ⟨-, hm', -, -⟩ := hinv.parent_of_within hw hm hplace hchild
      refine hparent (hm'.trans ?_)
      rw [hn']
      rfl
    · intro s hsmem n hn he
      by_contra hplace
      exact hnot _ (hinv.current s (hold s hsmem) hplace) n hn he.symm

/-- What references will stand for stays the same when the tasks within come into the queue. -/
theorem Inv.final_enter (hinv : e.Inv root touched (task :: tasks) p) (hs : e.Sound)
    (hw : Within e touched task p c new) (href : schemaRef task.content = none)
    (hdepth : ∀ d, Heap.Tree.node d ∈ task.content.children →
      (task.item.depth + 1 : Int) < e.maxDepth) {v : Value} {t : Schema}
    (hf : e.Final p.nodes touched (task :: tasks) v t)
    (hv : ∀ n ∈ new, n.place ≠ .shared → v ≠ .addr n.item.current) :
    e.Final p.nodes (TouchedBy touched new) (tasks ++ new) v t := by
  have hnot : ∀ a, touched a → ∀ n ∈ new, n.item.current ≠ a := by
    rintro a ha n hn rfl
    obtain ⟨j, d, -, -, -, hold, -⟩ := hw.spec hn
    exact hold.related.1 ha
  induction hf with
  | kept hold => exact .kept (hinv.holds_of_within hw hold hv)
  | @pending s t hmem hplace hexpands =>
    rcases List.mem_cons.mp hmem with rfl | hmem
    · have hdone : ∀ other ∈ tasks ++ new, other.item.current ≠ s.item.current := by
        intro other hother
        rcases List.mem_append.mp hother with hother | hother
        · exact hinv.current_ne hplace hother
        · exact hnot _ (hinv.current s List.mem_cons_self hplace) other hother
      have htouched := hinv.current s List.mem_cons_self hplace
      obtain ⟨d, rfl, -, hrelated⟩ := (expands_inside_iff href).mp hexpands
      refine .done (.inl htouched) hdone hw.node (hw.related.1.trans hrelated.1)
        fun i v t hv' ht => ?_
      obtain ⟨x, hx, hhold⟩ := hw.related.left hv'
      obtain ⟨hleaf, hnode⟩ := hrelated.2 i x t hx ht
      cases x with
      | leaf l =>
        rw [hleaf l rfl]
        refine .kept (hinv.holds_of_within hw hhold fun n _ _ he => ?_)
        subst he
        cases hhold
      | node d' =>
        cases v with
        | leaf l => cases hhold
        | addr a =>
          have hn : s.within i a d' ∈ new := (hw.mem _).mpr ⟨i, a, d', hv', hx, rfl⟩
          by_cases hp : s.place.within = .shared
          · have hmeets : e.Meets s.place.within (s.item.depth + 1) s.item.refPath d' :=
              .inside (hinv.meets s List.mem_cons_self) href (List.mem_of_getElem? hx)
                (hdepth d' (List.mem_of_getElem? hx))
            rw [hp] at hmeets
            rw [(hnode d' rfl).eq_of_shared hs.untouched hmeets]
            refine .kept (hinv.holds_of_within hw hhold fun n hn' hplace' _ => ?_)
            obtain ⟨j', d'', -, -, he, -, -⟩ := hw.spec hn'
            rw [he] at hplace'
            exact hplace' hp
          · exact .pending (s.within i a d') (List.mem_append_right _ hn) hp
              (hnode d' rfl)
    · exact .pending s (List.mem_append_left _ hmem) hplace hexpands
  | @done a c' d htouched hdone hc' hshape _ ih =>
    refine .done (.inl htouched) (fun other hother => ?_) hc' hshape fun i v t hv' ht => ?_
    · rcases List.mem_append.mp hother with hother | hother
      · exact hdone other (List.mem_cons_of_mem _ hother)
      · exact hnot a htouched other hother
    · refine ih i v t hv' ht fun n hn hplace he => ?_
      obtain ⟨hsame, -, -, -⟩ := hinv.parent_of_within hw hn hplace
        (child_eq_some.mpr ⟨c', hc', he ▸ hv'⟩)
      exact hdone task List.mem_cons_self hsame.symm

/-- A task that is no reference can be expanded if and only if what is within can. -/
theorem Within.expands_iff (hw : Within e touched task p c new)
    (href : schemaRef task.content = none)
    (hdepth : ∀ d, Heap.Tree.node d ∈ task.content.children →
      (task.item.depth + 1 : Int) < e.maxDepth) :
    (∃ t, e.ExpandsTask task t) ↔ ∀ n ∈ new, ∃ t, e.ExpandsTask n t := by
  constructor
  · rintro ⟨t, ht⟩ n hn
    obtain ⟨j, d, -, hd, he, -, -⟩ := hw.spec hn
    rw [he]
    obtain ⟨d', rfl, -, hrelated⟩ := (expands_inside_iff href).mp ht
    obtain ⟨t', -, -, hexpands⟩ := hrelated.left hd
    exact ⟨t', hexpands d rfl⟩
  · intro hall
    obtain ⟨d, hd⟩ := Container.exists_related (c := task.content)
      (R := fun s t => (∀ l, s = .leaf l → t = .leaf l) ∧
        ∀ c', s = .node c' → e.Expands (task.item.depth + 1) task.item.refPath c' t)
        fun s hsmem => by
      cases s with
      | leaf l => exact ⟨.leaf l, fun l' he => he, fun c' he => by cases he⟩
      | node d =>
        obtain ⟨i, hi⟩ := List.mem_iff_getElem?.mp hsmem
        obtain ⟨v, hv, hhold⟩ := hw.related.right hi
        cases v with
        | leaf l => cases hhold
        | addr a =>
          obtain ⟨t, ht⟩ := hall _ ((hw.mem _).mpr ⟨i, a, d, hv, hi, rfl⟩)
          exact ⟨t, fun l he => (by cases he), fun c' he => (by cases he; exact ht)⟩
    exact ⟨.node d, (expands_inside_iff href).mpr ⟨d, rfl, hdepth, hd⟩⟩

end Enter

section Leave

/-- What a step may change when a task leaves the queue and no other comes: what is at its
address, unless it is in a registered schema, and no reference is added there. -/
structure Leaves (task : Task) (p p' : Process) : Prop where
  next : p'.next = p.next
  nodes : ∀ a, a ≠ task.item.current → p'.nodes a = p.nodes a
  child : ∀ a i y, child p'.nodes a i = some (.addr y) → child p.nodes a i = some (.addr y)
  shared : task.place = .shared → p'.nodes = p.nodes

theorem Inv.leaves_kept (hinv : e.Inv root touched (task :: tasks) p) (hl : Leaves task p p')
    {a : Nat} (ha : ¬ touched a) : p'.nodes a = p.nodes a := by
  by_cases hplace : task.place = .shared
  · rw [hl.shared hplace]
  · refine hl.nodes a ?_
    rintro rfl
    exact ha (hinv.current task List.mem_cons_self hplace)

theorem Inv.leave (hinv : e.Inv root touched (task :: tasks) p) (hl : Leaves task p p')
    (hframe : e.Frame p') : e.Inv root touched tasks p' := by
  have hold : ∀ s ∈ tasks, s ∈ task :: tasks := fun s hs' => List.mem_cons_of_mem _ hs'
  refine { hframe with
    touched_new := ?_, root_touched := hinv.root_touched
    root_top := fun a i h => hinv.root_top a i (hl.child a i root h)
    unique := fun a i a' i' y hy h h' =>
      hinv.unique a i a' i' y hy (hl.child a i y h) (hl.child a' i' y h')
    own := fun a i y ha hnt h => hinv.own a i y ha hnt (hl.child a i y h)
    meets := fun s hs => hinv.meets s (hold s hs), content := ?_
    place := fun s hs => hinv.place s (hold s hs)
    current := fun s hs => hinv.current s (hold s hs), position := ?_, parent := ?_, alone := ?_
    distinct := (List.pairwise_cons.mp hinv.distinct).2 }
  · intro a ha
    rw [hl.next]
    exact hinv.touched_new a ha
  · intro s hs
    obtain ⟨c, hc, hrelated, hplaces⟩ := hinv.content s (hold s hs)
    refine ⟨c, ?_, hrelated.imp fun _ _ _ ht => ht.imp fun a c' hnt hc' =>
      ⟨hnt, (hinv.leaves_kept hl hnt).trans hc'⟩, hplaces⟩
    by_cases hplace : task.place = .shared
    · rwa [hl.shared hplace]
    · rwa [hl.nodes _ (hinv.current_ne hplace hs)]
  · intro s hs hplace a i h
    obtain ⟨ha, hothers, hparent⟩ := hinv.position s (hold s hs) hplace a i (hl.child a i _ h)
    exact ⟨ha, fun other hother => hothers other (hold other hother), hparent⟩
  · intro s hs hplace a i hparent
    have h := hinv.parent s (hold s hs) hplace a i hparent
    obtain ⟨-, hothers, -⟩ := hinv.position s (hold s hs) hplace a i h
    have hne := (hothers task List.mem_cons_self).symm
    rwa [Heap.child, hl.nodes a hne]
  · intro s hs hparent
    have hone := hinv.alone s (hold s hs) hparent
    rw [(List.cons.inj hone).2] at hs
    cases hs

/-- What references will stand for stays the same if what is at the address of the task is what it
is expanded to. -/
theorem Inv.final_leave (hinv : e.Inv root touched (task :: tasks) p) (hl : Leaves task p p')
    (hdone : task.place ≠ .shared → ∀ t, e.ExpandsTask task t → ∃ c d, t = .node d ∧
      p'.nodes task.item.current = some c ∧ c.Related (Holds p.nodes (¬ touched ·)) d)
    {v : Value} {t : Schema} (hf : e.Final p.nodes touched (task :: tasks) v t) :
    e.Final p'.nodes touched tasks v t := by
  have hkept : ∀ {v t}, Holds p.nodes (¬ touched ·) v t → e.Final p'.nodes touched tasks v t :=
    fun hold => .kept (hold.imp fun a c hnt hc => ⟨hnt, (hinv.leaves_kept hl hnt).trans hc⟩)
  induction hf with
  | kept hold => exact hkept hold
  | @pending s t hmem hplace hexpands =>
    rcases List.mem_cons.mp hmem with rfl | hmem
    · obtain ⟨c, d, rfl, hc, hrelated⟩ := hdone hplace t hexpands
      exact .done (hinv.current s List.mem_cons_self hplace)
        (fun other hother => hinv.current_ne hplace hother) hc hrelated.1
        fun i v t hv ht => hkept (hrelated.2 i v t hv ht)
    · exact .pending s hmem hplace hexpands
  | @done a c d htouched hothers hc hshape _ ih =>
    refine .done htouched (fun other hother => hothers other (List.mem_cons_of_mem _ hother)) ?_
      hshape ih
    rwa [hl.nodes a (hothers task List.mem_cons_self).symm]

end Leave

section Behind

variable {uri : String} {entries : List (String × Value)} {known content : Entries}

/-- Of a task that refers to a known schema and is not too deep the place is no registered
schema, as such a schema is left untouched. -/
theorem Inv.place_of_behind (hinv : e.Inv root touched (task :: tasks) p) (hs : e.Sound)
    (hcontent : task.content = .dict content) (href : schemaRef (.dict content) = some uri)
    (hpath : uri ∉ task.item.refPath) (hlookup : e.lookup uri = some known)
    (hdepth : (task.item.depth + 1 : Int) < e.maxDepth) : task.place ≠ .shared := by
  intro hplace
  have hmeets := hinv.meets task List.mem_cons_self
  rw [hplace, hcontent] at hmeets
  rcases (hs.untouched _ _ _ _ hmeets href).2 hpath with hnone | hdeep
  · rw [hnone] at hlookup
    cases hlookup
  · exact absurd hdepth (Int.not_lt.mpr hdeep)

/-- A copied dictionary stands for the schema wherever registered schemas are kept. -/
theorem Inv.related_of_known (hinv : e.Inv root touched (task :: tasks) p)
    {h : Nodes Leaf} {touched' : Nat → Prop}
    (hkept : ∀ a < e.start.next, h a = p.nodes a) (hnew : ∀ a, touched' a → e.start.next ≤ a)
    (hold : EntriesHold e.start.nodes e.start.next entries known) :
    (Container.dict entries).Related (Holds h (¬ touched' ·)) (.dict known) :=
  Container.Related.imp hold fun _ _ _ ht => ht.imp fun a _ ha hc =>
    ⟨fun h' => absurd ha (Nat.not_lt.mpr (hnew a h')),
      (hkept a ha).trans ((hinv.kept a ha).trans hc)⟩

/-- The invariant is kept when the whole schema is a reference and is replaced. -/
theorem Inv.replace_root (hinv : e.Inv root touched (task :: tasks) p)
    (hplace : task.place ≠ .shared) (hparent : task.item.parent = none)
    (hold : EntriesHold e.start.nodes e.start.next entries known)
    (hmeets : e.Meets .copy (task.item.depth + 1) (uri :: task.item.refPath) (.dict known))
    (hframe : e.Frame p')
    (hstore : p'.toStore =
      ⟨Function.update p.nodes task.item.current (some (.dict entries)), p.next⟩) :
    e.Inv root touched [task.behind task.item.current uri known] p' := by
  have hnodes : p'.nodes = Function.update p.nodes task.item.current (some (.dict entries)) :=
    congrArg Store.nodes hstore
  have hcurrent := hinv.current task List.mem_cons_self hplace
  have hge := (hinv.touched_new _ hcurrent).1
  have hne : ∀ a, a ≠ task.item.current → p'.nodes a = p.nodes a := fun a ha => by
    rw [hnodes, Function.update_of_ne ha]
  have hself : p'.nodes task.item.current = some (.dict entries) := by
    rw [hnodes, Function.update_self]
  have hchild : ∀ a i y, e.start.next ≤ y → child p'.nodes a i = some (.addr y) →
      a ≠ task.item.current ∧ child p.nodes a i = some (.addr y) := by
    intro a i y hy h
    by_cases ha : a = task.item.current
    · subst ha
      obtain ⟨c, hc, hi⟩ := child_eq_some.mp h
      cases hself.symm.trans hc
      exact absurd (hold.lt (List.mem_of_getElem? hi)) (Nat.not_lt.mpr hy)
    · rw [child, hne a ha] at h
      exact ⟨ha, h⟩
  have htouched : ∀ a, touched a → e.start.next ≤ a := fun a ha => (hinv.touched_new a ha).1
  refine { hframe with
    touched_new := ?_, root_touched := hinv.root_touched, root_top := ?_, unique := ?_, own := ?_
    meets := ?_, content := ?_, place := ?_, current := ?_, position := ?_, parent := ?_
    alone := ?_, distinct := List.pairwise_singleton _ _ }
  · intro a ha
    have hnext : p'.next = p.next := by rw [hstore]
    rw [hnext]
    exact hinv.touched_new a ha
  · intro a i h
    exact hinv.root_top a i (hchild a i root (htouched root hinv.root_touched) h).2
  · intro a i a' i' y hy h h'
    exact hinv.unique a i a' i' y hy (hchild a i y hy h).2 (hchild a' i' y hy h').2
  · intro a i y ha hnt h
    have hne' : a ≠ task.item.current := by
      rintro rfl
      exact hnt hcurrent
    rw [child, hne a hne'] at h
    exact hinv.own a i y ha hnt h
  · intro s hs
    cases List.mem_singleton.mp hs
    exact hmeets
  · intro s hs
    cases List.mem_singleton.mp hs
    refine ⟨.dict entries, hself, hinv.related_of_known (fun a ha => hne a ?_) htouched hold,
      fun y hy => iff_of_true (hold.lt hy) rfl⟩
    exact fun he => absurd ha (Nat.not_lt.mpr (he ▸ hge))
  · intro s hs
    cases List.mem_singleton.mp hs
    exact iff_of_false (Nat.not_lt.mpr hge) (fun h => by cases h)
  · intro s hs _
    cases List.mem_singleton.mp hs
    exact hcurrent
  · intro s hs _ a i h
    cases List.mem_singleton.mp hs
    obtain ⟨-, -, hsome⟩ := hinv.position task List.mem_cons_self hplace a i (hchild a i _ hge h).2
    rw [hparent] at hsome
    cases hsome
  · intro s hs _ a i h
    cases List.mem_singleton.mp hs
    exact absurd (hparent.symm.trans h) (fun h' => by cases h')
  · intro s hs _
    cases List.mem_singleton.mp hs
    rfl

theorem Inv.final_replace_root (hinv : e.Inv root touched (task :: tasks) p)
    (hplace : task.place ≠ .shared) (hparent : task.item.parent = none)
    (hnodes : ∀ a, a ≠ task.item.current → p'.nodes a = p.nodes a)
    (hexpands : ∀ t, e.ExpandsTask task t →
      e.ExpandsTask (task.behind task.item.current uri known) t)
    {v : Value} {t : Schema} (hf : e.Final p.nodes touched (task :: tasks) v t) :
    e.Final p'.nodes touched [task.behind task.item.current uri known] v t := by
  have hcurrent := hinv.current task List.mem_cons_self hplace
  have hone := hinv.alone task List.mem_cons_self hparent
  induction hf with
  | kept hold =>
    refine .kept (hold.imp fun a c hnt hc => ⟨hnt, (hnodes a ?_).trans hc⟩)
    rintro rfl
    exact hnt hcurrent
  | @pending s t hmem _ ht =>
    rw [hone] at hmem
    cases List.mem_singleton.mp hmem
    exact .pending (task.behind task.item.current uri known) List.mem_cons_self
      (fun h => by cases h) (hexpands t ht)
  | @done a c d htouched hdone hc hshape _ ih =>
    have hne : a ≠ task.item.current := (hdone task List.mem_cons_self).symm
    refine .done htouched (fun other hother => ?_) ((hnodes a hne).trans hc) hshape ih
    cases List.mem_singleton.mp hother
    exact hne.symm

/-- The heap after a task was replaced by a copied dictionary in its parent. -/
structure Replaces (task : Task) (entries : List (String × Value)) (x k : Nat)
    (p p' : Process) : Prop where
  parent : task.item.parent = some (x, k)
  next : p'.next = p.next + 1
  copied : p'.nodes p.next = some (.dict entries)
  assigned : ∀ c, p.nodes x = some c → p'.nodes x = some (c.set k (.addr p.next))
  nodes : ∀ a, a ≠ x → a ≠ p.next → p'.nodes a = p.nodes a

section Replace

variable {x k : Nat}

/-- What refers to an address of the call after a replacement: the parent to the copy, and all
that did before except the parent in that place. -/
theorem Inv.child_of_replaces (hinv : e.Inv root touched (task :: tasks) p)
    (hplace : task.place ≠ .shared) (hr : Replaces task entries x k p p')
    (hold : EntriesHold e.start.nodes e.start.next entries known) {a i y : Nat}
    (hy : e.start.next ≤ y) :
    child p'.nodes a i = some (.addr y) ↔
      (a = x ∧ i = k ∧ y = p.next) ∨ (¬ (a = x ∧ i = k) ∧ child p.nodes a i = some (.addr y)) := by
  have hx := hinv.parent task List.mem_cons_self hplace x k hr.parent
  obtain ⟨c, hc, hk⟩ := child_eq_some.mp hx
  have hlt : x < p.next := by
    by_contra h
    rw [hinv.free x (Nat.not_lt.mp h)] at hc
    cases hc
  by_cases ha : a = x
  · subst ha
    simp only [child, hr.assigned c hc, hc, Option.bind_some, Container.children_set,
      List.getElem?_set]
    by_cases hi : k = i
    · subst hi
      simp [(List.getElem?_eq_some_iff.mp hk).1, eq_comm]
    · simp [hi, Ne.symm hi]
  · by_cases hn : a = p.next
    · subst hn
      simp only [child, hr.copied, hinv.free _ (Nat.le_refl _), ha, false_and, false_or,
        not_false_eq_true, true_and, Option.bind_none, Option.bind_some]
      refine iff_of_false (fun h => ?_) (by simp)
      exact absurd (hold.lt (List.mem_of_getElem? h)) (Nat.not_lt.mpr hy)
    · simp [child, hr.nodes a ha hn, ha]

theorem Inv.replace (hinv : e.Inv root touched (task :: tasks) p) (hplace : task.place ≠ .shared)
    (hr : Replaces task entries x k p p')
    (hold : EntriesHold e.start.nodes e.start.next entries known)
    (hmeets : e.Meets .copy (task.item.depth + 1) (uri :: task.item.refPath) (.dict known))
    (hframe : e.Frame p') :
    e.Inv root (fun a => touched a ∨ a = p.next) (tasks ++ [task.behind p.next uri known]) p' := by
  have hx := hinv.parent task List.mem_cons_self hplace x k hr.parent
  obtain ⟨hxtouched, hxothers, -⟩ := hinv.position task List.mem_cons_self hplace x k hx
  have hchild := fun (a i y : Nat) hy =>
    hinv.child_of_replaces hplace hr hold (a := a) (i := i) (y := y) hy
  have htouched : ∀ a, touched a → e.start.next ≤ a ∧ a < p.next := hinv.touched_new
  have hnext : e.start.next ≤ p.next := hinv.start_le
  have hold' : ∀ s ∈ tasks, s ∈ task :: tasks := fun s hs' => List.mem_cons_of_mem _ hs'
  have hlt : ∀ s ∈ tasks, s.item.current < p.next := by
    intro s hs
    obtain ⟨c, hc, -⟩ := hinv.content s (hold' s hs)
    by_contra h
    rw [hinv.free _ (Nat.not_lt.mp h)] at hc
    cases hc
  have hoff : ∀ a c, ¬ touched a → p.nodes a = some c →
      ¬ (touched a ∨ a = p.next) ∧ p'.nodes a = some c := by
    intro a c hnt hc
    have hne : a ≠ p.next := by
      rintro rfl
      rw [hinv.free _ (Nat.le_refl _)] at hc
      cases hc
    refine ⟨fun h => h.elim hnt hne, ?_⟩
    rw [hr.nodes a (fun he => hnt (he ▸ hxtouched)) hne, hc]
  have hge : ∀ s ∈ tasks, s.place ≠ .shared → e.start.next ≤ s.item.current := fun s hs hp =>
    (htouched _ (hinv.current s (hold' s hs) hp)).1
  refine { hframe with
    touched_new := ?_, root_touched := .inl hinv.root_touched, root_top := ?_, unique := ?_
    own := ?_, meets := ?_, content := ?_, place := ?_, current := ?_, position := ?_
    parent := ?_, alone := ?_, distinct := ?_ }
  · rw [hr.next]
    rintro a (ha | rfl)
    · exact ⟨(htouched a ha).1, Nat.lt_succ_of_lt (htouched a ha).2⟩
    · exact ⟨hnext, Nat.lt_succ_self _⟩
  · intro a i h
    obtain ⟨hroot, hrootlt⟩ := htouched root hinv.root_touched
    rcases (hchild a i root hroot).mp h with ⟨-, -, he⟩ | ⟨-, h⟩
    · exact absurd hrootlt (Nat.not_lt.mpr (Nat.le_of_eq he.symm))
    · exact hinv.root_top a i h
  · intro a i a' i' y hy h h'
    rcases (hchild a i y hy).mp h with ⟨rfl, rfl, rfl⟩ | ⟨-, h⟩
    · rcases (hchild a' i' _ hy).mp h' with ⟨rfl, rfl, -⟩ | ⟨-, h'⟩
      · exact ⟨rfl, rfl⟩
      · exact absurd (hinv.bound _ _ _ h') (Nat.lt_irrefl _)
    · rcases (hchild a' i' y hy).mp h' with ⟨-, -, rfl⟩ | ⟨-, h'⟩
      · exact absurd (hinv.bound _ _ _ h) (Nat.lt_irrefl _)
      · exact hinv.unique a i a' i' y hy h h'
  · intro a i y ha hnt h
    have hne : a ≠ x := fun he => hnt (.inl (he ▸ hxtouched))
    rw [child, hr.nodes a hne fun he => hnt (.inr he)] at h
    exact hinv.own a i y ha (fun h' => hnt (.inl h')) h
  · intro s hs
    rcases List.mem_append.mp hs with hs | hs
    · exact hinv.meets s (hold' s hs)
    · cases List.mem_singleton.mp hs
      exact hmeets
  · intro s hs
    rcases List.mem_append.mp hs with hs | hs
    · obtain ⟨c, hc, hrelated, hplaces⟩ := hinv.content s (hold' s hs)
      refine ⟨c, ?_, hrelated.imp fun _ _ _ ht => ht.imp fun a c' hnt hc' => hoff a c' hnt hc',
        hplaces⟩
      rw [hr.nodes _ (hxothers s (hold' s hs)) (Nat.ne_of_lt (hlt s hs)), hc]
    · cases List.mem_singleton.mp hs
      refine ⟨.dict entries, hr.copied, hinv.related_of_known (fun a ha => ?_) ?_ hold,
        fun y hy => iff_of_true (hold.lt hy) rfl⟩
      · refine hr.nodes a (fun he => ?_) (Nat.ne_of_lt (Nat.lt_of_lt_of_le ha hnext))
        exact absurd ha (Nat.not_lt.mpr (he ▸ (htouched x hxtouched).1))
      · rintro a (ha | rfl)
        · exact (htouched a ha).1
        · exact hnext
  · intro s hs
    rcases List.mem_append.mp hs with hs | hs
    · exact hinv.place s (hold' s hs)
    · cases List.mem_singleton.mp hs
      exact iff_of_false (Nat.not_lt.mpr hnext) (fun h => by cases h)
  · intro s hs hp
    rcases List.mem_append.mp hs with hs | hs
    · exact .inl (hinv.current s (hold' s hs) hp)
    · cases List.mem_singleton.mp hs
      exact .inr rfl
  · intro s hs hp a i h
    rcases List.mem_append.mp hs with hs | hs
    · rcases (hchild a i _ (hge s hs hp)).mp h with ⟨-, -, he⟩ | ⟨-, h⟩
      · exact absurd (hlt s hs) (Nat.not_lt.mpr (Nat.le_of_eq he.symm))
      · obtain ⟨ha, hothers, hparent⟩ := hinv.position s (hold' s hs) hp a i h
        refine ⟨.inl ha, fun other hother => ?_, hparent⟩
        rcases List.mem_append.mp hother with hother | hother
        · exact hothers other (hold' other hother)
        · cases List.mem_singleton.mp hother
          exact (Nat.ne_of_lt (htouched a ha).2).symm
    · cases List.mem_singleton.mp hs
      rcases (hchild a i _ hnext).mp h with ⟨rfl, rfl, -⟩ | ⟨-, h⟩
      · refine ⟨.inl hxtouched, fun other hother => ?_, hr.parent⟩
        rcases List.mem_append.mp hother with hother | hother
        · exact hxothers other (hold' other hother)
        · cases List.mem_singleton.mp hother
          exact (Nat.ne_of_lt (htouched _ hxtouched).2).symm
      · exact absurd (hinv.bound _ _ _ h) (Nat.lt_irrefl _)
  · intro s hs hp a i hparent
    rcases List.mem_append.mp hs with hs | hs
    · have h := hinv.parent s (hold' s hs) hp a i hparent
      refine (hchild a i _ (hge s hs hp)).mpr (.inr ⟨?_, h⟩)
      rintro ⟨rfl, rfl⟩
      exact hinv.current_ne hplace hs (Ref.addr.inj (Option.some.inj (h.symm.trans hx)))
    · cases List.mem_singleton.mp hs
      cases hr.parent.symm.trans hparent
      exact (hchild _ _ _ hnext).mpr (.inl ⟨rfl, rfl, rfl⟩)
  · intro s hs hparent
    rcases List.mem_append.mp hs with hs | hs
    · have hone := hinv.alone s (hold' s hs) hparent
      rw [(List.cons.inj hone).2] at hs
      cases hs
    · cases List.mem_singleton.mp hs
      exact absurd (hr.parent.symm.trans hparent) (fun h => by cases h)
  · refine List.pairwise_append.mpr ⟨(List.pairwise_cons.mp hinv.distinct).2,
      List.pairwise_singleton _ _, fun s hs n hn he => ?_⟩
    cases List.mem_singleton.mp hn
    exact absurd he (Nat.ne_of_lt (hlt s hs))

/-- What references other than the parent's will stand for stays the same when a task makes way
for the schema it refers to. -/
theorem Inv.final_replace (hinv : e.Inv root touched (task :: tasks) p)
    (hplace : task.place ≠ .shared) (hr : Replaces task entries x k p p')
    (hexpands : ∀ t, e.ExpandsTask task t → e.ExpandsTask (task.behind p.next uri known) t)
    {v : Value} {t : Schema} (hf : e.Final p.nodes touched (task :: tasks) v t)
    (hv : v ≠ .addr task.item.current) :
    e.Final p'.nodes (fun a => touched a ∨ a = p.next) (tasks ++ [task.behind p.next uri known])
      v t := by
  have hx := hinv.parent task List.mem_cons_self hplace x k hr.parent
  obtain ⟨hxtouched, -, -⟩ := hinv.position task List.mem_cons_self hplace x k hx
  have hge := (hinv.touched_new _ (hinv.current task List.mem_cons_self hplace)).1
  have hnew : ∀ t, e.ExpandsTask task t → e.Final p'.nodes (fun a => touched a ∨ a = p.next)
      (tasks ++ [task.behind p.next uri known]) (.addr p.next) t := fun t ht =>
    .pending (task.behind p.next uri known) (by simp) (fun h => by cases h) (hexpands t ht)
  induction hf with
  | kept hold =>
    refine .kept (hold.imp fun a c hnt hc => ?_)
    have hne : a ≠ p.next := by
      rintro rfl
      rw [hinv.free _ (Nat.le_refl _)] at hc
      cases hc
    exact ⟨fun h => h.elim hnt hne,
      (hr.nodes a (fun he => hnt (he ▸ hxtouched)) hne).trans hc⟩
  | @pending s t hmem hp ht =>
    rcases List.mem_cons.mp hmem with rfl | hmem
    · exact absurd rfl hv
    · exact .pending s (List.mem_append_left _ hmem) hp ht
  | @done a c d htouched hdone hc hshape hchildren ih =>
    have hlt := (hinv.touched_new a htouched).2
    have hdone' : ∀ other ∈ tasks ++ [task.behind p.next uri known], other.item.current ≠ a := by
      intro other hother
      rcases List.mem_append.mp hother with hother | hother
      · exact hdone other (List.mem_cons_of_mem _ hother)
      · cases List.mem_singleton.mp hother
        exact (Nat.ne_of_lt hlt).symm
    have hother : ∀ i v t, ¬ (a = x ∧ i = k) → c.children[i]? = some v → d.children[i]? = some t →
        e.Final p'.nodes (fun a => touched a ∨ a = p.next)
          (tasks ++ [task.behind p.next uri known]) v t := by
      intro i v t hne hvi hti
      refine ih i v t hvi hti ?_
      rintro rfl
      exact hne (hinv.unique a i x k _ hge (child_eq_some.mpr ⟨c, hc, hvi⟩) hx)
    by_cases ha : a = x
    · subst ha
      refine .done (.inl htouched) hdone' (hr.assigned c hc) ((c.shape_set _ _).trans hshape)
        fun i v t hvi hti => ?_
      obtain ⟨c', hc', hk⟩ := child_eq_some.mp hx
      cases hc.symm.trans hc'
      rw [Container.children_set, List.getElem?_set] at hvi
      by_cases hi : k = i
      · subst hi
        rw [if_pos rfl, if_pos (List.getElem?_eq_some_iff.mp hk).1] at hvi
        cases hvi
        exact hnew t (hinv.expands_of_final hplace (hchildren k _ t hk hti))
      · rw [if_neg hi] at hvi
        exact hother i v t (fun h => hi h.2.symm) hvi hti
    · refine .done (.inl htouched) hdone' ?_ hshape fun i v t hvi hti =>
        hother i v t (fun h => ha h.1) hvi hti
      rw [hr.nodes a ha (Nat.ne_of_lt hlt), hc]

end Replace

end Behind

end Resolution

end PlatformSpec.Schemas
