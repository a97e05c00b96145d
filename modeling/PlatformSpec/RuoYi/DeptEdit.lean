import PlatformSpec.RuoYi.DeptTree

/-!
# Editing a department

What an accepted edit makes of every row, and when it leaves a tree.
-/

namespace PlatformSpec.RuoYi

open Base Split Relation DeptTable

section Edited

variable {jdk : Jdk} {t t' : DeptTable} {dept : EditRequest} {old : SysDept}

theorem placed_eq (t : DeptTable) (dept : EditRequest) :
    placed t dept = { dept with ancestors := (placed t dept).ancestors } := by
  unfold placed
  split
  next => rfl
  next => rfl

@[simp] theorem placed_deptId (t : DeptTable) (dept : EditRequest) :
    (placed t dept).deptId = dept.deptId := by
  rw [placed_eq]

private theorem get_finishUpdate {s : DeptTable} (h : finishUpdate jdk s (placed t dept) = some t')
    (id : Int) : t'.get id = (s.get id).map fun d =>
      { deptId := d.deptId
        parentId := if d.deptId = dept.deptId then newParentId dept d else d.parentId
        ancestors :=
          if d.deptId = dept.deptId then stored (placed t dept).ancestors d.ancestors
          else d.ancestors
        deptName :=
          if d.deptId = dept.deptId then stored (some dept.deptName) d.deptName else d.deptName
        status :=
          if some d.deptId ∈ enabledIds jdk t dept then deptNormal
          else if d.deptId = dept.deptId then stored dept.status d.status
          else d.status
        live := d.live } := by
  unfold finishUpdate at h
  unfold enabledIds
  split at h
  next hnone =>
    cases h
    rw [hnone, storeDept, get_modify, placed_eq]
    refine congrArg (Option.map · _) (funext fun d => ?_)
    by_cases hd : d.deptId = dept.deptId
    · simp [hd, newParentId]
    · simp [hd]
  next => cases h
  next ids _ hsome =>
    cases h
    rw [hsome, updateDeptStatusNormal, get_modify, storeDept, get_modify, placed_eq,
      Option.map_map]
    refine congrArg (Option.map · _) (funext fun d => ?_)
    by_cases hd : d.deptId = dept.deptId
    · by_cases hi : some dept.deptId ∈ ids
      · simp [hd, hi, newParentId]
      · simp [hd, hi, newParentId]
    · by_cases hi : some d.deptId ∈ ids
      · simp [hd, hi]
      · simp [hd, hi]

theorem editSave_cases (h : editSave jdk t dept = some t') :
    ∃ old, t.get dept.deptId = some old ∧ dept.parentId ≠ some dept.deptId ∧
      ∀ id, t'.get id = (t.get id).map (edited jdk t dept old) := by
  unfold editSave at h
  split at h
  next => cases h
  next parentId hparent =>
    split at h
    next => cases h
    next =>
      split at h
      next => cases h
      next =>
        split at h
        next => cases h
        next hself =>
          split at h
          next => cases h
          next =>
            obtain ⟨old, hold, hupdate⟩ := Option.bind_eq_some_iff.mp h
            refine ⟨old, hold, fun he => hself (Option.some.inj (hparent.symm.trans he)),
              fun id => ?_⟩
            unfold updateDept at hupdate
            split at hupdate
            next hnone =>
              have hplaced : placed t dept = dept := by rw [placed, hnone]
              rw [← hplaced] at hupdate
              rw [get_finishUpdate hupdate]
              refine congrArg (Option.map · _) (funext fun d => ?_)
              simp [edited, rewritten, hnone]
            next parent hsome =>
              obtain ⟨s, hs, hfinish⟩ := Option.bind_eq_some_iff.mp hupdate
              unfold updateDeptChildren at hs
              split at hs
              next =>
                cases hs
                rw [get_finishUpdate hfinish, get_modify, Option.map_map]
                refine congrArg (Option.map · _) (funext fun d => ?_)
                by_cases hd : findInSet dept.deptId d.ancestors = true
                · simp [edited, rewritten, hsome, hd, newParentId]
                · simp [edited, rewritten, hsome, hd]
              next => cases hs

end Edited

section Tree

variable {jdk : Jdk} {t t' : DeptTable} {dept : EditRequest} {old : SysDept}

/-- When an edit leaves a tree, told of the ids that it enables. -/
structure EditKeeps (jdk : Jdk) (t : DeptTable) (dept : EditRequest) : Prop where
  placed : ∀ d, t.Live dept.deptId d →
    match t.get (dept.parentId.getD 0) with
    | some p => p.live = true ∧ ¬ TransGen t.Parent (dept.parentId.getD 0) dept.deptId
    | none => dept.parentId.getD 0 = 0 ∧ stored dept.ancestors d.ancestors = d.ancestors
  closed : ∀ a b, t.Parent a b → a ≠ dept.deptId → some a ∈ enabledIds jdk t dept →
    some b ∈ enabledIds jdk t dept ∨ t.Enabled b ∨ b = dept.deptId
  enabled : ∀ d, t.Live dept.deptId d → stored dept.status d.status = deptNormal →
    newParentId dept d = 0 ∨ some (newParentId dept d) ∈ enabledIds jdk t dept ∨
      t.Enabled (newParentId dept d)
  disabled : ∀ d, t.Live dept.deptId d → stored dept.status d.status ≠ deptNormal →
    ∀ a, t.Parent a dept.deptId → ¬ t.Enabled a

theorem stored_of_enabledIds {id : Option Int} (h : id ∈ enabledIds jdk t dept) (status : Str) :
    stored dept.status status = deptNormal := by
  unfold enabledIds parentDeptIds at h
  split at h
  next hstatus =>
    rw [placed_eq] at hstatus
    rw [hstatus.1]
    rfl
  next => cases h

variable {d : SysDept}

theorem rewritten_of_not_findInSet (h : findInSet dept.deptId d.ancestors = false) :
    rewritten jdk t dept old d = d.ancestors := by
  rw [rewritten, h, Bool.and_false]
  rfl

theorem rewritten_of_none (h : t.get (dept.parentId.getD 0) = none) :
    rewritten jdk t dept old d = d.ancestors := by
  rw [rewritten, h]
  rfl

theorem rewritten_append (h : LocalTree t) {p : SysDept} {s : Str}
    (hold : t.Live dept.deptId old) (hp : t.Live (dept.parentId.getD 0) p)
    (hd : d.ancestors = old.ancestors ++ s) (hin : findInSet dept.deptId d.ancestors = true) :
    rewritten jdk t dept old d = p.ancestors ++ ',' :: decimal (dept.parentId.getD 0) ++ s := by
  obtain ⟨-, -, holdPlain, -⟩ := h.path hold
  obtain ⟨-, -, hpPlain, -⟩ := h.path hp
  have hplaced : (placed t dept).ancestors =
      some (p.ancestors ++ ',' :: decimal (dept.parentId.getD 0)) := by
    rw [placed, hp.1]
    dsimp only
    rw [(mem_of_get hp.1).2]
  rw [rewritten, hin, hp.1, hplaced]
  have hreplace := jdk.replaceFirst_plain _ _ d.ancestors holdPlain
    (hpPlain.append_comma (dept.parentId.getD 0))
  rw [hd, cut_append_self] at hreplace
  rw [hd]
  simp only [Option.isSome_some, Bool.and_self, if_true, Option.getD_some, hreplace]
  simp

variable {id a b : Int}

theorem live_edited_iff (h : ∀ id, t'.get id = (t.get id).map (edited jdk t dept old))
    : t'.Live id d ↔ ∃ e, t.Live id e ∧ d = edited jdk t dept old e := by
  unfold Live
  rw [h, Option.map_eq_some_iff]
  constructor
  · rintro ⟨⟨e, he, rfl⟩, hlive⟩
    exact ⟨e, ⟨he, hlive⟩, rfl⟩
  · rintro ⟨e, ⟨he, hlive⟩, rfl⟩
    exact ⟨⟨e, he, rfl⟩, hlive⟩

theorem enabled_edited_iff (h : ∀ id, t'.get id = (t.get id).map (edited jdk t dept old))
    : t'.Enabled id ↔ ∃ e, t.Live id e ∧ (some id ∈ enabledIds jdk t dept ∨
      (if id = dept.deptId then stored dept.status e.status else e.status) = deptNormal) := by
  unfold Enabled
  constructor
  · rintro ⟨d, hd, hstatus⟩
    obtain ⟨e, he, rfl⟩ := (live_edited_iff h).mp hd
    refine ⟨e, he, ?_⟩
    unfold edited at hstatus
    rw [(mem_of_get he.1).2] at hstatus
    by_cases hin : some id ∈ enabledIds jdk t dept
    · exact Or.inl hin
    · exact Or.inr (by simpa only [if_neg hin] using hstatus)
  · rintro ⟨e, he, hstatus⟩
    refine ⟨_, (live_edited_iff h).mpr ⟨e, he, rfl⟩, ?_⟩
    unfold edited
    rw [(mem_of_get he.1).2]
    dsimp only
    split
    next => rfl
    next hin => exact hstatus.resolve_left hin

theorem parent_after_iff (h : ∀ id, t'.get id = (t.get id).map (edited jdk t dept old))
    : t'.Parent a b ↔ ∃ e p, t.Live a e ∧ (edited jdk t dept old e).parentId = b ∧ t.Live b p := by
  unfold Parent
  constructor
  · rintro ⟨d, p, hd, hab, hp⟩
    obtain ⟨e, he, rfl⟩ := (live_edited_iff h).mp hd
    obtain ⟨q, hq, -⟩ := (live_edited_iff h).mp hp
    exact ⟨e, q, he, hab, hq⟩
  · rintro ⟨e, q, he, hab, hq⟩
    exact ⟨_, _, (live_edited_iff h).mpr ⟨e, he, rfl⟩, hab, (live_edited_iff h).mpr ⟨q, hq, rfl⟩⟩

theorem parent_edited_iff (h : ∀ id, t'.get id = (t.get id).map (edited jdk t dept old))
    (ha : a ≠ dept.deptId) : t'.Parent a b ↔ t.Parent a b := by
  rw [parent_after_iff h]
  refine exists_congr fun e => exists_congr fun p => and_congr_right fun he => ?_
  rw [edited, (mem_of_get he.1).2, if_neg ha]

theorem parent_self_iff (h : ∀ id, t'.get id = (t.get id).map (edited jdk t dept old))
    : t'.Parent dept.deptId b ↔
      ∃ d p, t.Live dept.deptId d ∧ newParentId dept d = b ∧ t.Live b p := by
  rw [parent_after_iff h]
  refine exists_congr fun e => exists_congr fun p => and_congr_right fun he => ?_
  rw [edited, (mem_of_get he.1).2, if_pos rfl]

theorem getD_ne (hself : dept.parentId ≠ some dept.deptId) (hzero : dept.deptId ≠ 0) :
    dept.parentId.getD 0 ≠ dept.deptId := by
  cases hparent : dept.parentId with
  | none => exact hzero.symm
  | some parentId => exact fun he => hself (hparent.trans (congrArg some he))

/-- The parent that an edit gives a live row: a live department that is not the row itself. -/
theorem newParentId_live (h : LocalTree t) (hself : dept.parentId ≠ some dept.deptId)
    (hkeeps : ∀ d, t.Live dept.deptId d → match t.get (dept.parentId.getD 0) with
      | some p => p.live = true ∧ ¬ TransGen t.Parent (dept.parentId.getD 0) dept.deptId
      | none => dept.parentId.getD 0 = 0 ∧ stored dept.ancestors d.ancestors = d.ancestors)
    (hd : t.Live dept.deptId d) : newParentId dept d = 0 ∨
      newParentId dept d ≠ dept.deptId ∧ ∃ p, t.Live (newParentId dept d) p := by
  have hplaced := hkeeps d hd
  split at hplaced
  next p hp =>
    have hne := (id_of_get hp).1
    rw [newParentId, if_pos hne]
    exact Or.inr ⟨getD_ne hself (id_of_get hd.1).1, p, hp, hplaced.1⟩
  next =>
    rw [newParentId, if_neg (not_not.mpr hplaced.1)]
    rcases h.ancestors _ d hd with ⟨hzero, -⟩ | ⟨p, hp, -⟩
    · exact Or.inl hzero
    · refine Or.inr ⟨fun he => h.acyclic dept.deptId (TransGen.single ⟨d, p, hd, he, ?_⟩), p, hp⟩
      rw [← he]
      exact hp

/-- After an edit every enabled row has an enabled parent if and only if the ids that are enabled
and the row itself keep to that. -/
theorem enabled_edited_forall_iff (htree : LocalTree t)
    (h : ∀ id, t'.get id = (t.get id).map (edited jdk t dept old))
    (hnew : ∀ d, t.Live dept.deptId d → newParentId dept d = 0 ∨
      newParentId dept d ≠ dept.deptId ∧ ∃ p, t.Live (newParentId dept d) p) :
    (∀ a b, t'.Parent a b → t'.Enabled a → t'.Enabled b) ↔
      (∀ a b, t.Parent a b → a ≠ dept.deptId → some a ∈ enabledIds jdk t dept →
        some b ∈ enabledIds jdk t dept ∨ t.Enabled b ∨ b = dept.deptId) ∧
      (∀ d, t.Live dept.deptId d → stored dept.status d.status = deptNormal →
        newParentId dept d = 0 ∨ some (newParentId dept d) ∈ enabledIds jdk t dept ∨
          t.Enabled (newParentId dept d)) ∧
      ∀ d, t.Live dept.deptId d → stored dept.status d.status ≠ deptNormal →
        ∀ a, t.Parent a dept.deptId → ¬ t.Enabled a := by
  have hkept {a : Int} (ha : a ≠ dept.deptId) (hen : t.Enabled a) : t'.Enabled a := by
    obtain ⟨d, hd, hstatus⟩ := hen
    exact (enabled_edited_iff h).mpr ⟨d, hd, Or.inr (by rw [if_neg ha, hstatus])⟩
  have hback {a : Int} (ha : a ≠ dept.deptId) (hen : t'.Enabled a) :
      some a ∈ enabledIds jdk t dept ∨ t.Enabled a := by
    obtain ⟨d, hd, hstatus⟩ := (enabled_edited_iff h).mp hen
    rw [if_neg ha] at hstatus
    exact hstatus.imp_right fun hs => ⟨d, hd, hs⟩
  constructor
  · intro hall
    refine ⟨fun a b hab ha hin => ?_, fun d hd hstored => ?_, fun d hd hstored a ha hen => ?_⟩
    · obtain ⟨d, hd⟩ := hab.left
      have hb := hall a b ((parent_edited_iff h ha).mpr hab)
        ((enabled_edited_iff h).mpr ⟨d, hd, Or.inl hin⟩)
      by_cases hself : b = dept.deptId
      · exact Or.inr (Or.inr hself)
      · exact (hback hself hb).imp_right Or.inl
    · rcases hnew d hd with hzero | ⟨hne, p, hp⟩
      · exact Or.inl hzero
      · refine Or.inr (hback hne (hall dept.deptId _ ((parent_self_iff h).mpr
          ⟨d, p, hd, rfl, hp⟩) ((enabled_edited_iff h).mpr ⟨d, hd, Or.inr ?_⟩)))
        rw [if_pos rfl, hstored]
    · have hne : a ≠ dept.deptId := fun he =>
        htree.acyclic dept.deptId (TransGen.single (he ▸ ha))
      have hb := hall a _ ((parent_edited_iff h hne).mpr ha) (hkept hne hen)
      obtain ⟨e, he, hstatus⟩ := (enabled_edited_iff h).mp hb
      cases Option.some.inj (hd.1.symm.trans he.1)
      rcases hstatus with hin | hstatus
      · exact hstored (stored_of_enabledIds hin d.status)
      · rw [if_pos rfl] at hstatus
        exact hstored hstatus
  · rintro ⟨hclosed, henabled, hdisabled⟩ a b hab ha
    by_cases hself : a = dept.deptId
    · subst hself
      obtain ⟨d, p, hd, rfl, hp⟩ := (parent_self_iff h).mp hab
      obtain ⟨e, he, hstatus⟩ := (enabled_edited_iff h).mp ha
      cases Option.some.inj (hd.1.symm.trans he.1)
      have hstored : stored dept.status d.status = deptNormal := by
        rcases hstatus with hin | hstatus
        · exact stored_of_enabledIds hin d.status
        · rwa [if_pos rfl] at hstatus
      have hne : newParentId dept d ≠ dept.deptId := by
        rcases hnew d hd with hzero | ⟨hne, -⟩
        · exact absurd hzero (id_of_get hp.1).1
        · exact hne
      rcases henabled d hd hstored with hzero | hin | hen
      · exact absurd hzero (id_of_get hp.1).1
      · exact (enabled_edited_iff h).mpr ⟨p, hp, Or.inl hin⟩
      · exact hkept hne hen
    · have hparent := (parent_edited_iff h hself).mp hab
      obtain ⟨p, hp⟩ := hparent.right
      by_cases hbself : b = dept.deptId
      · subst hbself
        refine (enabled_edited_iff h).mpr ⟨p, hp, Or.inr ?_⟩
        rw [if_pos rfl]
        by_contra hstored
        rcases hback hself ha with hin | hen
        · exact hstored (stored_of_enabledIds hin p.status)
        · exact hdisabled p hp hstored a hparent hen
      · rcases hback hself ha with hin | hen
        · rcases hclosed a b hparent hself hin with hin | hen | he
          · exact (enabled_edited_iff h).mpr ⟨p, hp, Or.inl hin⟩
          · exact hkept hbself hen
          · exact absurd he hbself
        · exact hkept hbself (htree.enabled a b hparent hen)

theorem listed_of_same (htree : LocalTree t)
    (h : ∀ id, t'.get id = (t.get id).map (edited jdk t dept old))
    (hsame : ∀ x r, t.Live x r → (edited jdk t dept old r).parentId = r.parentId ∧
      (edited jdk t dept old r).ancestors = r.ancestors) (hd : t'.Live id d) : t'.Listed d := by
  obtain ⟨e, he, rfl⟩ := (live_edited_iff h).mp hd
  obtain ⟨hparent, hancestors⟩ := hsame id e he
  unfold Listed
  rw [hparent, hancestors]
  rcases htree.ancestors id e he with hroot | ⟨p, hp, hlist⟩
  · exact Or.inl hroot
  · refine Or.inr ⟨_, (live_edited_iff h).mpr ⟨p, hp, rfl⟩, ?_⟩
    rw [(hsame _ p hp).2]
    exact hlist

theorem listed_of_placed (htree : LocalTree t)
    (h : ∀ id, t'.get id = (t.get id).map (edited jdk t dept old))
    (hold : t.get dept.deptId = some old) (hself : dept.parentId ≠ some dept.deptId)
    (hkeeps : ∀ d, t.Live dept.deptId d → match t.get (dept.parentId.getD 0) with
      | some p => p.live = true ∧ ¬ TransGen t.Parent (dept.parentId.getD 0) dept.deptId
      | none => dept.parentId.getD 0 = 0 ∧ stored dept.ancestors d.ancestors = d.ancestors)
    (hd : t'.Live id d) : t'.Listed d := by
  have hzero := (id_of_get hold).1
  -- a row that is not below the edited one keeps its ancestors
  have hfar {x : Int} {r : SysDept} (hr : t.Live x r) (hx : ¬ TransGen t.Parent x dept.deptId) :
      rewritten jdk t dept old r = r.ancestors := by
    refine rewritten_of_not_findInSet (Bool.eq_false_iff.mpr fun hin => hx ?_)
    exact (htree.findInSet_iff hr hzero).mp hin
  have hother {x : Int} {r : SysDept} (hr : t.Live x r) (hx : x ≠ dept.deptId) :
      (edited jdk t dept old r).parentId = r.parentId ∧
        (edited jdk t dept old r).ancestors = rewritten jdk t dept old r := by
    have hne : r.deptId ≠ dept.deptId := (mem_of_get hr.1).2 ▸ hx
    exact ⟨if_neg hne, if_neg hne⟩
  by_cases hlive : old.live = true
  swap
  · -- nothing hangs on a deleted department
    refine listed_of_same htree h (fun x r hr => ?_) hd
    have hx : x ≠ dept.deptId := by
      rintro rfl
      cases Option.some.inj (hold.symm.trans hr.1)
      exact hlive hr.2
    obtain ⟨hparent, hancestors⟩ := hother hr hx
    refine ⟨hparent, hancestors.trans (hfar hr fun hbelow => ?_)⟩
    obtain ⟨y, -, hy⟩ := TransGen.tail'_iff.mp hbelow
    obtain ⟨q, hq⟩ := hy.right
    cases Option.some.inj (hold.symm.trans hq.1)
    exact hlive hq.2
  have hplaced := hkeeps old ⟨hold, hlive⟩
  split at hplaced
  next p hp =>
    have hpLive : t.Live (dept.parentId.getD 0) p := ⟨hp, hplaced.1⟩
    have hpne := (id_of_get hp).1
    have hpself : dept.parentId.getD 0 ≠ dept.deptId := getD_ne hself hzero
    have hnear {x : Int} {r : SysDept} {s : Str} (hr : t.Live x r)
        (hx : TransGen t.Parent x dept.deptId) (hs : r.ancestors = old.ancestors ++ s) :
        rewritten jdk t dept old r =
          p.ancestors ++ ',' :: decimal (dept.parentId.getD 0) ++ s :=
      rewritten_append htree ⟨hold, hlive⟩ hpLive hs ((htree.findInSet_iff hr hzero).mpr hx)
    have hroot : (edited jdk t dept old old).parentId = dept.parentId.getD 0 ∧
        (edited jdk t dept old old).ancestors =
          p.ancestors ++ ',' :: decimal (dept.parentId.getD 0) := by
      have hid := (mem_of_get hold).2
      refine ⟨(if_pos hid).trans (if_pos hpne), (if_pos hid).trans ?_⟩
      rw [placed, hp]
      dsimp only
      rw [(mem_of_get hp).2, stored, if_neg (by simp)]
    obtain ⟨e, he, rfl⟩ := (live_edited_iff h).mp hd
    unfold Listed
    by_cases hid : id = dept.deptId
    · subst hid
      cases Option.some.inj (hold.symm.trans he.1)
      rw [hroot.1, hroot.2]
      refine Or.inr ⟨_, (live_edited_iff h).mpr ⟨p, hpLive, rfl⟩, ?_⟩
      rw [(hother hpLive hpself).2, hfar hpLive hplaced.2]
    · obtain ⟨hparent, hancestors⟩ := hother he hid
      rw [hparent, hancestors]
      rcases htree.ancestors id e he with ⟨htop, hlist⟩ | ⟨q, hq, hlist⟩
      · refine Or.inl ⟨htop, (hfar he fun hbelow => ?_).trans hlist⟩
        obtain ⟨y, hy, -⟩ := TransGen.head'_iff.mp hbelow
        obtain ⟨q, hq⟩ := hy.right
        exact (id_of_get hq.1).1 ((hy.eq he).trans htop)
      · have hup : t.Parent id e.parentId := ⟨e, q, he, rfl, hq⟩
        refine Or.inr ⟨_, (live_edited_iff h).mpr ⟨q, hq, rfl⟩, ?_⟩
        by_cases hy : e.parentId = dept.deptId
        · rw [hy] at hq hup hlist ⊢
          cases Option.some.inj (hold.symm.trans hq.1)
          rw [hroot.2]
          exact hnear he (TransGen.single hup) hlist
        · rw [(hother hq hy).2]
          by_cases hbelow : TransGen t.Parent e.parentId dept.deptId
          · obtain ⟨s, hs⟩ := htree.ancestors_append hbelow hq ⟨hold, hlive⟩
            rw [hnear hq hbelow hs, hnear he (TransGen.head hup hbelow)
              (hlist.trans (by rw [hs, List.append_assoc]))]
            simp
          · rw [hfar hq hbelow, hfar he fun hbelow' => ?_]
            · exact hlist
            · exact (hup.of_transGen hbelow').elim hy hbelow
  next hnone =>
    refine listed_of_same htree h (fun x r hr => ?_) hd
    by_cases hx : x = dept.deptId
    · subst hx
      cases Option.some.inj (hold.symm.trans hr.1)
      have hid := (mem_of_get hold).2
      refine ⟨(if_pos hid).trans (if_neg (not_not.mpr hplaced.1)), (if_pos hid).trans ?_⟩
      rw [rewritten_of_none hnone, placed, hnone]
      exact hplaced.2
    · obtain ⟨hparent, hancestors⟩ := hother hr hx
      exact ⟨hparent, hancestors.trans (rewritten_of_none hnone)⟩

theorem transGen_edited (htree : LocalTree t)
    (h : ∀ id, t'.get id = (t.get id).map (edited jdk t dept old))
    (hab : TransGen t.Parent a dept.deptId) : TransGen t'.Parent a dept.deptId := by
  induction hab using TransGen.head_induction_on with
  | single hac =>
    refine TransGen.single ((parent_edited_iff h fun he => ?_).mpr hac)
    exact htree.acyclic _ (TransGen.single (he ▸ hac))
  | head hac hcb ih =>
    refine TransGen.head ((parent_edited_iff h fun he => ?_).mpr hac) ih
    exact htree.acyclic _ (TransGen.head (he ▸ hac) hcb)

theorem placed_of_tree (htree : LocalTree t) (htree' : LocalTree t')
    (h : ∀ id, t'.get id = (t.get id).map (edited jdk t dept old)) (hd : t.Live dept.deptId d) :
    match t.get (dept.parentId.getD 0) with
    | some p => p.live = true ∧ ¬ TransGen t.Parent (dept.parentId.getD 0) dept.deptId
    | none => dept.parentId.getD 0 = 0 ∧ stored dept.ancestors d.ancestors = d.ancestors := by
  have hid := (mem_of_get hd.1).2
  have hlisted := htree'.ancestors _ _ ((live_edited_iff h).mpr ⟨d, hd, rfl⟩)
  have hparent : (edited jdk t dept old d).parentId = newParentId dept d := if_pos hid
  unfold Listed at hlisted
  rw [hparent] at hlisted
  split
  next p hp =>
    have hne := (id_of_get hp).1
    have hnew : newParentId dept d = dept.parentId.getD 0 := if_pos hne
    rw [hnew] at hlisted
    rcases hlisted with ⟨hzero, -⟩ | ⟨p', hp', -⟩
    · exact absurd hzero hne
    · obtain ⟨q, hq, -⟩ := (live_edited_iff h).mp hp'
      refine ⟨Option.some.inj (hq.1.symm.trans hp) ▸ hq.2, fun hbelow => ?_⟩
      -- the way up to the department is kept, and leads back
      have hup := transGen_edited htree h hbelow
      exact htree'.acyclic _ (TransGen.head
        ((parent_self_iff h).mpr ⟨d, q, hd, hnew, hq⟩) hup)
  next hnone =>
    have hzero : dept.parentId.getD 0 = 0 := by
      by_contra hne
      have hnew : newParentId dept d = dept.parentId.getD 0 := if_pos hne
      rw [hnew] at hlisted
      rcases hlisted with ⟨hzero, -⟩ | ⟨p', hp', -⟩
      · exact hne hzero
      · obtain ⟨q, hq, -⟩ := (live_edited_iff h).mp hp'
        cases hnone.symm.trans hq.1
    have hnew : newParentId dept d = d.parentId := if_neg (not_not.mpr hzero)
    have hancestors : (edited jdk t dept old d).ancestors = stored dept.ancestors d.ancestors := by
      refine (if_pos hid).trans ?_
      rw [rewritten_of_none hnone, placed, hnone]
    rw [hnew, hancestors] at hlisted
    refine ⟨hzero, ?_⟩
    rcases htree.ancestors _ d hd with ⟨htop, hlist⟩ | ⟨p, hp, hlist⟩
    · rcases hlisted with ⟨-, hstored⟩ | ⟨p', hp', -⟩
      · rw [hstored, hlist]
      · obtain ⟨q, hq, -⟩ := (live_edited_iff h).mp hp'
        exact absurd htop (id_of_get hq.1).1
    · rcases hlisted with ⟨htop, -⟩ | ⟨p', hp', hstored⟩
      · exact absurd htop (id_of_get hp.1).1
      · obtain ⟨q, hq, rfl⟩ := (live_edited_iff h).mp hp'
        cases Option.some.inj (hp.1.symm.trans hq.1)
        have hpne : p.deptId ≠ dept.deptId := by
          rw [(mem_of_get hp.1).2]
          exact fun he => htree.acyclic _ (TransGen.single ⟨d, p, hd, he, he ▸ hp⟩)
        have hsame : (edited jdk t dept old p).ancestors = p.ancestors :=
          (if_neg hpne).trans (rewritten_of_none hnone)
        rw [hstored, hsame, hlist]

theorem localTree_edit_iff (htree : LocalTree t) (h : editSave jdk t dept = some t') :
    LocalTree t' ↔ EditKeeps jdk t dept := by
  obtain ⟨old, hold, hself, hget⟩ := editSave_cases h
  constructor
  · intro htree'
    have hplaced := fun d (hd : t.Live dept.deptId d) => placed_of_tree htree htree' hget hd
    obtain ⟨hclosed, henabled, hdisabled⟩ := (enabled_edited_forall_iff htree hget
      fun d hd => newParentId_live htree hself hplaced hd).mp htree'.enabled
    exact ⟨hplaced, hclosed, henabled, hdisabled⟩
  · intro hkeeps
    refine ⟨fun id d hd => listed_of_placed htree hget hold hself hkeeps.placed hd, ?_⟩
    exact (enabled_edited_forall_iff htree hget
      fun d hd => newParentId_live htree hself hkeeps.placed hd).mpr
        ⟨hkeeps.closed, hkeeps.enabled, hkeeps.disabled⟩

end Tree

end PlatformSpec.RuoYi
