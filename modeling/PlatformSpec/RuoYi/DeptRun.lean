import PlatformSpec.Base.Run
import PlatformSpec.RuoYi.DeptEdit

/-!
# Runs of department requests

Which requests leave the departments a tree with correct ancestors.
-/

namespace PlatformSpec.RuoYi

open Base Split Relation DeptTable

section Ids

variable {jdk : Jdk} {t : DeptTable} {dept : EditRequest}

theorem IsPlain.trim_eq {s : Str} (h : IsPlain s) : trim s = s := by
  have hblank : ∀ c ∈ s, decide (c.toNat ≤ 0x20) = false := by
    intro c hc
    rw [decide_eq_false_iff_not, not_le]
    rcases h c hc with hdigit | rfl | rfl
    · have hbounds : 48 ≤ c.toNat ∧ c.toNat ≤ 57 := by
        simpa [Char.isDigit, UInt32.le_iff_toNat_le] using hdigit
      omega
    · decide
    · decide
  exact stripBoth_eq_self_iff.mpr ⟨fun c hc => hblank c (List.mem_of_head? hc),
    fun c hc => hblank c (List.mem_of_getLast? hc)⟩

theorem IsPlain.isEmpty_eq {s : Str} (h : IsPlain s) (hne : s ≠ []) :
    isEmpty (some s) = false := by
  rw [isEmpty, h.trim_eq]
  exact decide_eq_false hne

theorem toLongArray_eq {s : Str} {ids : List Int} (hplain : IsPlain s) (hne : s ≠ [])
    (hsplit : s.splitOn ',' = ids.map decimal) (hlong : ∀ id ∈ ids, IsLong id) :
    toLongArray jdk s = ids.map some := by
  have hcomma : splitComma s = ids.map decimal := by
    unfold splitComma
    split
    next =>
      rw [hsplit, stripRight_eq_self_iff]
      intro w hw
      obtain ⟨id, -, rfl⟩ := List.mem_map.mp (List.mem_of_getLast? hw)
      exact List.isEmpty_eq_false_iff.mpr (decimal_ne_nil id)
    next h => rw [← hsplit, List.splitOn_eq_singleton h]
  rw [toLongArray, hplain.isEmpty_eq hne, hcomma, List.map_map]
  refine List.map_congr_left fun id hid => ?_
  have hdecimal := isPlain_decimal id
  rw [Function.comp_apply, hdecimal.isEmpty_eq (decimal_ne_nil id), hdecimal.trim_eq]
  exact jdk.toLong_decimal id (hlong id hid)

theorem isLong_zero : IsLong 0 := by decide

theorem LocalTree.toLongArray_ancestors (h : LocalTree t) {id : Int} {d : SysDept}
    (hd : t.Live id d) (jdk : Jdk) : ∃ path : List Int,
      toLongArray jdk d.ancestors = (0 :: path).map some ∧
        toLongArray jdk (d.ancestors ++ ',' :: decimal id) = (0 :: path ++ [id]).map some ∧
          ∀ x, x ∈ path ↔ TransGen t.Parent id x := by
  obtain ⟨path, hsplit, hplain, hmem⟩ := h.path hd
  have hne : d.ancestors ≠ [] := by
    intro hnil
    rw [hnil] at hsplit
    have hhead := (List.cons.inj hsplit).1
    exact decimal_ne_nil 0 hhead.symm
  have hlong : ∀ x ∈ 0 :: path, IsLong x := by
    intro x hx
    rcases List.mem_cons.mp hx with rfl | hx
    · exact isLong_zero
    · obtain ⟨y, -, hy⟩ := TransGen.tail'_iff.mp ((hmem x).mp hx)
      obtain ⟨p, hp⟩ := hy.right
      exact (id_of_get hp.1).2
  refine ⟨path, toLongArray_eq hplain hne hsplit hlong, ?_, hmem⟩
  refine toLongArray_eq (hplain.append_comma id) (by simp) ?_ fun x hx => ?_
  · rw [splitOn_append_comma, hsplit, List.map_append]
    rfl
  · rcases List.mem_append.mp hx with hx | hx
    · exact hlong x hx
    · exact List.mem_singleton.mp hx ▸ (id_of_get hd.1).2

end Ids

section Edit

variable {jdk : Jdk} {t t' : DeptTable} {dept : EditRequest}

/-- When an edit leaves a tree. A live department is given a live parent that is not below it, or
its place and ancestors are kept; it is enabled under an enabled parent, or with all above it, and
disabled above disabled departments alone. Of the departments that the edit of a deleted one
enables, the parents are enabled. -/
structure EditSafe (jdk : Jdk) (t : DeptTable) (dept : EditRequest) : Prop where
  placed : ∀ d, t.Live dept.deptId d →
    match t.get (dept.parentId.getD 0) with
    | some p => p.live = true ∧ ¬ TransGen t.Parent (dept.parentId.getD 0) dept.deptId
    | none => dept.parentId.getD 0 = 0 ∧ stored dept.ancestors d.ancestors = d.ancestors
  enabled : ∀ d, t.Live dept.deptId d → stored dept.status d.status = deptNormal →
    newParentId dept d = 0 ∨ t.Enabled (newParentId dept d) ∨ dept.status = some deptNormal ∧
      ((t.get (dept.parentId.getD 0)).isSome = true ∨ isEmpty dept.ancestors = false)
  disabled : ∀ d, t.Live dept.deptId d → stored dept.status d.status ≠ deptNormal →
    ∀ a, t.Parent a dept.deptId → ¬ t.Enabled a
  revived : (∀ d, ¬ t.Live dept.deptId d) → ∀ a b, t.Parent a b →
    some a ∈ enabledIds jdk t dept → some b ∈ enabledIds jdk t dept ∨ t.Enabled b

theorem enabledIds_eq (jdk : Jdk) (t : DeptTable) (dept : EditRequest) :
    enabledIds jdk t dept =
      if dept.status = some deptNormal ∧ isEmpty (placed t dept).ancestors = false ∧
          (placed t dept).ancestors ≠ some "0".toList then
        toLongArray jdk ((placed t dept).ancestors.getD [])
      else [] := by
  rw [enabledIds, parentDeptIds, placed_eq]
  dsimp only
  split
  next => rfl
  next => rfl

private theorem append_comma_ne_zero (s : Str) (n : Int) : s ++ ',' :: decimal n ≠ "0".toList := by
  intro h
  have hmem : ',' ∈ s ++ ',' :: decimal n := by simp
  rw [h] at hmem
  cases hmem with
  | tail _ hmem => cases hmem

private theorem parent_mem_path {path : List Int} {id a b : Int}
    (hmem : ∀ x, x ∈ path ↔ TransGen t.Parent id x) (hab : t.Parent a b) (ha : a ∈ 0 :: path) :
    b ∈ path := by
  rcases List.mem_cons.mp ha with rfl | ha
  · obtain ⟨d, hd⟩ := hab.left
    exact absurd rfl (id_of_get hd.1).1
  · exact (hmem b).mpr (TransGen.tail ((hmem a).mp ha) hab)

/-- A live department that is placed well is enabled with everything above it. -/
theorem enabledIds_of_live (htree : LocalTree t) {d : SysDept} (hd : t.Live dept.deptId d)
    (hplaced : match t.get (dept.parentId.getD 0) with
      | some p => p.live = true ∧ ¬ TransGen t.Parent (dept.parentId.getD 0) dept.deptId
      | none => dept.parentId.getD 0 = 0 ∧ stored dept.ancestors d.ancestors = d.ancestors) :
    (∀ a b, t.Parent a b → some a ∈ enabledIds jdk t dept → some b ∈ enabledIds jdk t dept) ∧
      (dept.status = some deptNormal →
        (t.get (dept.parentId.getD 0)).isSome = true ∨ isEmpty dept.ancestors = false →
          newParentId dept d = 0 ∨ some (newParentId dept d) ∈ enabledIds jdk t dept) := by
  rw [enabledIds_eq]
  split at hplaced
  next p hp =>
    have hpLive : t.Live (dept.parentId.getD 0) p := ⟨hp, hplaced.1⟩
    obtain ⟨path, -, hids, hmem⟩ := htree.toLongArray_ancestors hpLive jdk
    obtain ⟨-, -, hplain, -⟩ := htree.path hpLive
    have hgiven : (placed t dept).ancestors =
        some (p.ancestors ++ ',' :: decimal (dept.parentId.getD 0)) := by
      rw [placed, hp]
      dsimp only
      rw [(mem_of_get hp).2]
    rw [hgiven, Option.getD_some, hids]
    refine ⟨fun a b hab hin => ?_, fun hstatus _ => Or.inr ?_⟩
    · split at hin
      next hcalled =>
        rw [if_pos hcalled]
        rw [List.mem_map_of_injective (Option.some_injective _), List.mem_append] at hin ⊢
        rcases hin with ha | ha
        · exact Or.inl (List.mem_cons_of_mem _ (parent_mem_path hmem hab ha))
        · rw [List.mem_singleton.mp ha] at hab
          exact Or.inl (List.mem_cons_of_mem _ ((hmem b).mpr (TransGen.single hab)))
      next => cases hin
    · rw [if_pos ⟨hstatus, (hplain.append_comma _).isEmpty_eq (by simp), fun he =>
        append_comma_ne_zero _ _ (Option.some.inj he)⟩, newParentId, if_pos (id_of_get hp).1,
        List.mem_map_of_injective (Option.some_injective _), List.mem_append]
      exact Or.inr (List.mem_singleton_self _)
  next hnone =>
    obtain ⟨path, hids, -, hmem⟩ := htree.toLongArray_ancestors hd jdk
    have hgiven : placed t dept = dept := by rw [placed, hnone]
    have hsame : isEmpty dept.ancestors = false → dept.ancestors = some d.ancestors := by
      intro hne
      have hstored := hplaced.2
      cases hancestors : dept.ancestors with
      | none =>
        rw [hancestors] at hne
        cases hne
      | some s =>
        rw [hancestors] at hne hstored
        by_cases hs : s = []
        · rw [hs] at hne
          cases hne
        · rw [stored, if_neg hs] at hstored
          rw [hstored]
    rw [hgiven]
    refine ⟨fun a b hab hin => ?_, fun hstatus hfull => ?_⟩
    · split at hin
      next hcalled =>
        rw [if_pos hcalled]
        rw [hsame hcalled.2.1, Option.getD_some, hids,
          List.mem_map_of_injective (Option.some_injective _)] at hin ⊢
        exact List.mem_cons_of_mem _ (parent_mem_path hmem hab hin)
      next => cases hin
    · have hempty := hfull.resolve_left (by rw [hnone]; simp)
      have hnew : newParentId dept d = d.parentId := if_neg (not_not.mpr hplaced.1)
      rw [hnew]
      rcases htree.ancestors _ d hd with ⟨htop, -⟩ | ⟨q, hq, hlist⟩
      · exact Or.inl htop
      · have hother : dept.ancestors ≠ some "0".toList := by
          rw [hsame hempty, hlist]
          exact fun he => append_comma_ne_zero _ _ (Option.some.inj he)
        rw [if_pos ⟨hstatus, hempty, hother⟩, hsame hempty, Option.getD_some, hids,
          List.mem_map_of_injective (Option.some_injective _)]
        exact Or.inr (List.mem_cons_of_mem _ ((hmem _).mpr
          (TransGen.single ⟨d, q, hd, rfl, hq⟩)))

theorem editKeeps_iff (htree : LocalTree t) (h : editSave jdk t dept = some t') :
    EditKeeps jdk t dept ↔ EditSafe jdk t dept := by
  obtain ⟨old, hold, -, -⟩ := editSave_cases h
  constructor
  · intro hkeeps
    refine ⟨hkeeps.placed, fun d hd hstored => ?_, hkeeps.disabled, fun hdead a b hab hin => ?_⟩
    · rcases hkeeps.enabled d hd hstored with hzero | hin | hen
      · exact Or.inl hzero
      · refine Or.inr (Or.inr ?_)
        unfold enabledIds parentDeptIds at hin
        split at hin
        next hcalled =>
          rw [placed_eq] at hcalled
          refine ⟨hcalled.1, ?_⟩
          have hgiven := hcalled.2.1
          unfold RuoYi.placed at hgiven
          split at hgiven
          next => exact Or.inr hgiven
          next hsome => exact Or.inl (by rw [hsome]; rfl)
        next => cases hin
      · exact Or.inr (Or.inl hen)
    · obtain ⟨d, hd⟩ := hab.left
      obtain ⟨p, hp⟩ := hab.right
      rcases hkeeps.closed a b hab (fun he => hdead d (he ▸ hd)) hin with hin | hen | he
      · exact Or.inl hin
      · exact Or.inr hen
      · exact absurd (he ▸ hp) (hdead p)
  · intro hsafe
    refine ⟨hsafe.placed, fun a b hab _ hin => ?_, fun d hd hstored => ?_, hsafe.disabled⟩
    · by_cases hlive : old.live = true
      · exact Or.inl ((enabledIds_of_live htree ⟨hold, hlive⟩
          (hsafe.placed old ⟨hold, hlive⟩)).1 a b hab hin)
      · refine (hsafe.revived (fun d hd => ?_) a b hab hin).imp_right Or.inl
        cases Option.some.inj (hold.symm.trans hd.1)
        exact hlive hd.2
    · rcases hsafe.enabled d hd hstored with hzero | hen | ⟨hstatus, hgiven⟩
      · exact Or.inl hzero
      · exact Or.inr (Or.inr hen)
      · exact ((enabledIds_of_live htree hd (hsafe.placed d hd)).2 hstatus hgiven).imp_right Or.inl

end Edit

section Steps

variable {jdk : Jdk} {t t' : DeptTable}

theorem addSave_cases {dept : AddRequest} (h : addSave t dept = some t') :
    ∃ parentId info d, dept.parentId = some parentId ∧ t.get parentId = some info ∧
      info.status = deptNormal ∧ t.get d.deptId = none ∧ d.live = true ∧
      d.parentId = parentId ∧ d.ancestors = info.ancestors ++ ',' :: decimal parentId ∧
      ∀ id, t'.get id = if id = d.deptId then some d else t.get id := by
  unfold addSave at h
  split at h
  next => cases h
  next parentId hparent =>
    split at h
    next => cases h
    next =>
      split at h
      next => cases h
      next info hinfo =>
        split at h
        next => cases h
        next hstatus =>
          split at h
          next hnew =>
            cases h
            exact ⟨parentId, info, _, hparent, hinfo, not_not.mp hstatus, hnew.2.2, rfl, rfl, rfl,
              fun id => get_insert t _ hnew id⟩
          next => cases h

theorem localTree_add_iff {dept : AddRequest} (htree : LocalTree t)
    (h : addSave t dept = some t') :
    LocalTree t' ↔ ∃ parentId p, dept.parentId = some parentId ∧ t.Live parentId p := by
  obtain ⟨parentId, info, d, hparent, hinfo, hstatus, hfresh, hlive, hdp, hda, hget⟩ :=
    addSave_cases h
  have hne : parentId ≠ d.deptId := by
    rintro rfl
    cases hfresh.symm.trans hinfo
  have hold {id : Int} {e : SysDept} (hid : id ≠ d.deptId) : t'.Live id e ↔ t.Live id e := by
    unfold Live
    rw [hget, if_neg hid]
  have hne_of_live {id : Int} {e : SysDept} (he : t.Live id e) : id ≠ d.deptId := by
    rintro rfl
    cases hfresh.symm.trans he.1
  have hkept {id : Int} {e : SysDept} (he : t.Live id e) : t'.Live id e :=
    (hold (hne_of_live he)).mpr he
  have hnew {e : SysDept} : t'.Live d.deptId e ↔ e = d := by
    unfold Live
    rw [hget, if_pos rfl]
    exact ⟨fun he => (Option.some.inj he.1).symm, by rintro rfl; exact ⟨rfl, hlive⟩⟩
  have hzero : parentId ≠ 0 := (id_of_get hinfo).1
  constructor
  · intro htree'
    rcases htree'.ancestors _ d (hnew.mpr rfl) with ⟨htop, -⟩ | ⟨p, hp, -⟩
    · exact absurd (hdp.symm.trans htop) hzero
    · rw [hdp] at hp
      exact ⟨parentId, p, hparent, (hold hne).mp hp⟩
  · rintro ⟨parentId', p, hparent', hp⟩
    cases Option.some.inj (hparent.symm.trans hparent')
    cases Option.some.inj (hinfo.symm.trans hp.1)
    have hup {a b : Int} (ha : a ≠ d.deptId) (hab : t'.Parent a b) : t.Parent a b := by
      obtain ⟨e, q, he, rfl, hq⟩ := hab
      have he' := (hold ha).mp he
      rcases htree.ancestors a e he' with ⟨htop, -⟩ | ⟨q', hq', -⟩
      · rw [htop] at hq
        exact absurd rfl (id_of_get hq.1).1
      · exact ⟨e, q', he', rfl, hq'⟩
    refine ⟨fun id e he => ?_, fun a b hab ha => ?_⟩
    · by_cases hid : id = d.deptId
      · subst hid
        cases hnew.mp he
        refine Or.inr ⟨info, ?_, ?_⟩
        · rw [hdp]
          exact hkept hp
        · rw [hdp, hda]
      · rcases htree.ancestors id e ((hold hid).mp he) with htop | ⟨q, hq, hlist⟩
        · exact Or.inl htop
        · exact Or.inr ⟨q, hkept hq, hlist⟩
    · by_cases hself : a = d.deptId
      · subst hself
        rw [hab.eq (hnew.mpr rfl), hdp]
        exact ⟨info, hkept hp, hstatus⟩
      · obtain ⟨e, he, hs⟩ := ha
        obtain ⟨q, hq, hqs⟩ := htree.enabled a b (hup hself hab) ⟨e, (hold hself).mp he, hs⟩
        exact ⟨q, hkept hq, hqs⟩

variable {dept : RemoveRequest}

theorem remove_cases (h : remove t dept = some t') :
    (∀ id d, t.Live id d → d.parentId ≠ dept.deptId) ∧ ∀ id, t'.get id =
      (t.get id).map fun d => if d.deptId = dept.deptId then { d with live := false } else d := by
  unfold remove at h
  split at h
  next => cases h
  next hcount =>
    split at h
    next => cases h
    next =>
      split at h
      next => cases h
      next =>
        obtain ⟨old, hold, rfl⟩ := Option.map_eq_some_iff.mp h
        refine ⟨fun id d hd hparent => hcount ?_, fun id => get_modify t _ _ id⟩
        refine List.countP_pos_iff.mpr ⟨d, (mem_of_get hd.1).1, ?_⟩
        simp [hd.2, hparent]

theorem localTree_remove (htree : LocalTree t) (h : remove t dept = some t') : LocalTree t' := by
  obtain ⟨hchildless, hget⟩ := remove_cases h
  have hlive {id : Int} {d : SysDept} : t'.Live id d ↔ id ≠ dept.deptId ∧ t.Live id d := by
    unfold Live
    rw [hget, Option.map_eq_some_iff]
    constructor
    · rintro ⟨⟨e, he, rfl⟩, hd⟩
      rw [(mem_of_get he).2] at hd ⊢
      by_cases hid : id = dept.deptId
      · rw [if_pos hid] at hd
        cases hd
      · rw [if_neg hid] at hd ⊢
        exact ⟨hid, he, hd⟩
    · rintro ⟨hid, hd, hdl⟩
      exact ⟨⟨d, hd, by rw [(mem_of_get hd).2, if_neg hid]⟩, hdl⟩
  refine ⟨fun id d hd => ?_, fun a b hab ha => ?_⟩
  · obtain ⟨-, hd⟩ := hlive.mp hd
    rcases htree.ancestors id d hd with htop | ⟨p, hp, hlist⟩
    · exact Or.inl htop
    · exact Or.inr ⟨p, hlive.mpr ⟨hchildless id d hd, hp⟩, hlist⟩
  · obtain ⟨d, p, hd, rfl, hp⟩ := hab
    obtain ⟨e, he, hs⟩ := ha
    have hup : t.Parent a d.parentId := ⟨d, p, (hlive.mp hd).2, rfl, (hlive.mp hp).2⟩
    obtain ⟨q, hq, hqs⟩ := htree.enabled a d.parentId hup ⟨e, (hlive.mp he).2, hs⟩
    exact ⟨q, hlive.mpr ⟨(hlive.mp hp).1, hq⟩, hqs⟩

end Steps

/-- A request that leaves a tree. -/
def DeptRequest.Safe (jdk : Jdk) (t : DeptTable) : DeptRequest → Prop
  | .add dept => ∃ parentId p, dept.parentId = some parentId ∧ t.Live parentId p
  | .edit dept => EditSafe jdk t dept
  | .remove _ => True

variable {jdk : Jdk} {t t' : DeptTable}

theorem correctTree_step_iff (htree : CorrectTree t) {request : DeptRequest}
    (h : deptStep jdk t request = some t') : CorrectTree t' ↔ request.Safe jdk t := by
  rw [correctTree_iff] at htree ⊢
  cases request with
  | add dept => exact localTree_add_iff htree h
  | edit dept => exact (localTree_edit_iff htree h).trans (editKeeps_iff htree h)
  | remove dept => exact iff_of_true (localTree_remove htree h) trivial

/-- Through a run of accepted requests the departments stay a tree with correct ancestors if and
only if every request is safe where it is made. -/
theorem deptTree_run_iff {requests : List DeptRequest} (htree : CorrectTree t)
    (hrun : run (deptStep jdk) t requests = some t') :
    (∀ pre post m, requests = pre ++ post → run (deptStep jdk) t pre = some m → CorrectTree m) ↔
      ∀ pre request post m, requests = pre ++ request :: post →
        run (deptStep jdk) t pre = some m → request.Safe jdk m :=
  run_forall_iff (fun m (request : DeptRequest) => request.Safe jdk m) (fun _ => True)
    (fun _ _ _ _ _ => trivial) (fun _ _ _ _ hm hstep => correctTree_step_iff hm hstep) trivial
      htree hrun

section Example

/-- Plain texts are replaced literally, and plain numbers read. -/
def plainJdk : Jdk where
  replaceFirst regex replacement s := some (match cut regex s with
    | none => s
    | some (before, after) => before ++ (replacement ++ after))
  toLong := readInt
  replaceFirst_plain _ _ _ _ _ := rfl
  toLong_decimal n _ := readInt_decimal n

/-- A company with one department in another. -/
def threeDepts : DeptTable where
  rows := [⟨100, 0, "0".toList, "a".toList, "0".toList, true⟩,
    ⟨101, 100, "0,100".toList, "b".toList, "0".toList, true⟩,
    ⟨102, 101, "0,100,101".toList, "c".toList, "0".toList, true⟩]
  nodup := by decide
  ids := by decide

theorem correctTree_threeDepts : CorrectTree threeDepts := by
  refine correctTree_iff.mpr ⟨fun id d hd => ?_, fun a b hab _ => ?_⟩
  · have hmem := (mem_of_get hd.1).1
    simp only [threeDepts, List.mem_cons, List.not_mem_nil, or_false] at hmem
    rcases hmem with rfl | rfl | rfl
    · exact Or.inl ⟨rfl, rfl⟩
    · exact Or.inr ⟨_, ⟨rfl, rfl⟩, by decide⟩
    · exact Or.inr ⟨_, ⟨rfl, rfl⟩, by decide⟩
  · obtain ⟨p, hp⟩ := hab.right
    have hmem := (mem_of_get hp.1).1
    simp only [threeDepts, List.mem_cons, List.not_mem_nil, or_false] at hmem
    refine ⟨p, hp, ?_⟩
    rcases hmem with rfl | rfl | rfl <;> rfl

/-- A new department in the innermost one. -/
def addBelow : AddRequest where
  deptId := none
  generated := 200
  parentId := some 102
  deptName := "d".toList
  status := none

/-- A run in which a department is added leaves a tree all along. -/
theorem deptTree_run_add : ∃ t', run (deptStep plainJdk) threeDepts [.add addBelow] = some t' ∧
    ∀ pre post m, [DeptRequest.add addBelow] = pre ++ post →
      run (deptStep plainJdk) threeDepts pre = some m → CorrectTree m := by
  obtain ⟨t', h⟩ := Option.isSome_iff_exists.mp
    (by decide : (run (deptStep plainJdk) threeDepts [.add addBelow]).isSome = true)
  refine ⟨t', h, (deptTree_run_iff correctTree_threeDepts h).mpr fun pre request post m he hm => ?_⟩
  cases pre with
  | nil =>
    cases he
    cases hm
    exact ⟨102, _, rfl, rfl, rfl⟩
  | cons first pre =>
    cases pre with
    | nil => cases he
    | cons next pre => cases he

/-- A department is given the one below it for a parent. -/
def moveBelow : EditRequest where
  deptId := 101
  parentId := some 102
  ancestors := none
  deptName := "b".toList
  status := some deptNormal
  permitted := true

/-- The controller accepts the edit, and the departments are no tree any more. -/
theorem deptTree_broken : CorrectTree threeDepts ∧
    ∃ t', run (deptStep plainJdk) threeDepts [.edit moveBelow] = some t' ∧ ¬ CorrectTree t' := by
  obtain ⟨t', h⟩ := Option.isSome_iff_exists.mp
    (by decide : (editSave plainJdk threeDepts moveBelow).isSome = true)
  have hstep : deptStep plainJdk threeDepts (.edit moveBelow) = some t' := h
  refine ⟨correctTree_threeDepts, t', run_cons_eq_some.mpr ⟨t', hstep, rfl⟩, fun htree => ?_⟩
  have hsafe : EditSafe plainJdk threeDepts moveBelow :=
    (correctTree_step_iff correctTree_threeDepts hstep).mp htree
  have hplaced := hsafe.placed ⟨101, 100, "0,100".toList, "b".toList, "0".toList, true⟩ ⟨rfl, rfl⟩
  exact hplaced.2 (TransGen.single ⟨_, _, ⟨rfl, rfl⟩, rfl, ⟨rfl, rfl⟩⟩)

end Example

end PlatformSpec.RuoYi
