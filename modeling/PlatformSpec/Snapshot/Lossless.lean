import PlatformSpec.Snapshot.Portable

/-!
# Snapshots of variable pools

A restored pool has the variables of its dictionary, read back, under what its constructor writes
again: environment variables and RAG pipeline variables always, system and conversation variables
where nothing is stored.
-/

namespace PlatformSpec.Snapshot

open Base DraftVariable

/-- The last variable of a name. -/
def lastNamed : List Variable → String → Option Variable
  | [], _ => none
  | v :: vs, name => (lastNamed vs name).or (if v.name = name then some v else none)

namespace VariablePool

variable {p q : VariablePool}

@[simp] theorem lookup_setNode (nodeId : String) (node : OrderedDict String Variable)
    (n x : String) :
    (p.setNode nodeId node).lookup n x = if n = nodeId then node.get x else p.lookup n x := by
  unfold lookup setNode
  rw [OrderedDict.get_set]
  split <;> rfl

/-- A stored variable is found under its own key, and every other variable stays. -/
@[simp] theorem lookup_store (nodeId name n x : String) (v : Variable) :
    (p.store nodeId name v).lookup n x =
      if n = nodeId ∧ x = name then some v else p.lookup n x := by
  rw [store, lookup_setNode]
  by_cases hn : n = nodeId
  · subst hn
    simp only [↓reduceIte, OrderedDict.get_set, true_and]
    split
    · rfl
    · unfold nodeMap lookup
      cases p.variableDictionary.get n <;> rfl
  · simp [hn]

variable {nodeId name id : String}

theorem add_eq_some {given : Given} (h : p.add [nodeId, name] given id = some q) :
    ∃ v, given.toVariable id [nodeId, name] = some v ∧ q = p.store nodeId name v := by
  obtain ⟨v, hv, hq⟩ := Option.map_eq_some_iff.mp h
  exact ⟨v, hv, hq.symm⟩

theorem get_congr (lib : Libraries) (h : ∀ n x, p.lookup n x = q.lookup n x)
    (selector : List String) : p.get lib selector = q.get lib selector := by
  match selector with
  | [] | [_] => rfl
  | n :: x :: attrs => simp only [get, h n x]

theorem get_pair (lib : Libraries) (n x : String) :
    p.get lib [n, x] = .ok ((p.lookup n x).map .variable) := by
  simp only [get]
  cases p.lookup n x <;> rfl

theorem get_eq_iff (lib : Libraries) :
    (∀ selector, p.get lib selector = q.get lib selector) ↔
      ∀ n x, p.lookup n x = q.lookup n x := by
  constructor
  · intro h n x
    have hpair := h [n, x]
    rw [get_pair, get_pair] at hpair
    exact Option.map_injective (fun _ _ hv => Found.variable.inj hv) (Except.ok.inj hpair)
  · exact get_congr lib

/-! ### What the constructor writes -/

/-- What is stored stays. -/
def Keeps (p q : VariablePool) : Prop := ∀ n x v, p.lookup n x = some v → q.lookup n x = some v

private theorem addUnlessStored {given : Given}
    (h : (if (p.lookup nodeId name).isSome then some p else p.add [nodeId, name] given id) =
      some q) : (q.lookup nodeId name).isSome = true ∧ Keeps p q := by
  split at h
  next hstored =>
    cases h
    exact ⟨hstored, fun _ _ _ hv => hv⟩
  next hstored =>
    obtain ⟨w, -, rfl⟩ := add_eq_some h
    refine ⟨by simp, fun n x v hv => ?_⟩
    rw [lookup_store, if_neg, hv]
    rintro ⟨rfl, rfl⟩
    rw [hv] at hstored
    exact hstored rfl

private theorem foldlM_keeps {α : Type} {f : VariablePool → α → Option VariablePool}
    (nodeId : String) (key : α → String) (hstep : ∀ p a q, f p a = some q →
      (q.lookup nodeId (key a)).isSome = true ∧ Keeps p q) {l : List α}
    (h : l.foldlM f p = some q) :
    (∀ a ∈ l, (q.lookup nodeId (key a)).isSome = true) ∧ Keeps p q := by
  induction l generalizing p with
  | nil =>
    cases h
    exact ⟨by simp, fun _ _ _ hv => hv⟩
  | cons a l ih =>
    rw [List.foldlM_cons] at h
    obtain ⟨r, hr, hrest⟩ := Option.bind_eq_some_iff.mp h
    obtain ⟨hstored, hkeeps⟩ := hstep p a r hr
    obtain ⟨hall, hkeeps'⟩ := ih hrest
    refine ⟨List.forall_mem_cons.mpr ⟨?_, hall⟩, fun n x v hv => hkeeps' n x v (hkeeps n x v hv)⟩
    obtain ⟨v, hv⟩ := Option.isSome_iff_exists.mp hstored
    exact Option.isSome_of_eq_some (hkeeps' _ _ v hv)

private theorem foldlM_eq_self {α : Type} {f : VariablePool → α → Option VariablePool}
    {l : List α} (h : ∀ a ∈ l, f p a = some p) : l.foldlM f p = some p := by
  induction l with
  | nil => rfl
  | cons a l ih =>
    obtain ⟨ha, hl⟩ := List.forall_mem_cons.mp h
    rw [List.foldlM_cons, ha]
    exact ih hl

private theorem foldlM_environment (p : VariablePool) (vs : List Variable) :
    ∃ q, vs.foldlM addEnvironmentVariable p = some q ∧ ∀ n x, q.lookup n x =
      if n = env then (lastNamed vs x).or (p.lookup n x) else p.lookup n x := by
  induction vs generalizing p with
  | nil => exact ⟨p, rfl, fun n x => by simp [lastNamed]⟩
  | cons v vs ih =>
    obtain ⟨q, hq, hlookup⟩ := ih (p.store env v.name v)
    refine ⟨q, hq, fun n x => ?_⟩
    rw [hlookup, lookup_store, lastNamed, Option.or_assoc]
    by_cases hn : n = env
    · by_cases hx : v.name = x
      · simp [hn, hx]
      · simp [hn, hx, Ne.symm hx]
    · simp [hn]

variable {ids : String → String → String}

theorem addRagPipelineVariable_eq_some {entry : String × List (String × Datum)}
    (h : p.addRagPipelineVariable ids entry = some q) :
    ∃ v, v.id = ids rag entry.1 ∧ q = p.store rag entry.1 v := by
  obtain ⟨v, hv, hq⟩ := add_eq_some h
  refine ⟨v, ?_, hq⟩
  rw [Given.toVariable] at hv
  obtain ⟨s, -, hs⟩ := Option.bind_eq_some_iff.mp hv
  unfold segmentToVariable at hs
  split at hs
  next => cases hs
  next =>
    cases hs
    rfl

private theorem foldlM_rag {l : List (String × List (String × Datum))} (hne : l ≠ [])
    (h : l.foldlM (fun q entry => q.addRagPipelineVariable ids entry) p = some q) :
    ∃ x v, q.lookup rag x = some v ∧ v.id = ids rag x := by
  induction l generalizing p with
  | nil => exact absurd rfl hne
  | cons entry l ih =>
    rw [List.foldlM_cons] at h
    obtain ⟨r, hr, hrest⟩ := Option.bind_eq_some_iff.mp h
    by_cases hl : l = []
    · subst hl
      obtain rfl : r = q := Option.some.inj hrest
      obtain ⟨v, hid, rfl⟩ := addRagPipelineVariable_eq_some hr
      exact ⟨entry.1, v, by simp, hid⟩
    · exact ih hl hrest

end VariablePool

theorem assign_ne_nil {α : Type} (d : List (String × α)) (k : String) (a : α) :
    Assoc.assign d k a ≠ [] := by
  cases d with
  | nil => simp [Assoc.assign]
  | cons p d =>
    unfold Assoc.assign
    split <;> simp

theorem ragPipelineVariablesMap_ne_nil {inputs : List RAGPipelineVariableInput}
    (h : inputs ≠ []) : ragPipelineVariablesMap inputs ≠ [] := by
  obtain ⟨front, last, rfl⟩ : ∃ front last, inputs = front ++ [last] :=
    ⟨_, _, (List.dropLast_append_getLast h).symm⟩
  rw [ragPipelineVariablesMap, List.foldl_append]
  exact assign_ne_nil _ _ _

private theorem keys_filterMap (l : List (String × Option Datum)) :
    (l.filterMap fun p => p.2.map (Prod.mk p.1)).map Prod.fst =
      (l.map fun p => (p.1, p.2.isSome)).filterMap fun p => if p.2 then some p.1 else none := by
  rw [List.map_filterMap, List.filterMap_map]
  congr 1
  funext p
  obtain ⟨key, value⟩ := p
  cases value <;> rfl

theorem SystemVariable.keys_reread (s : SystemVariable) :
    s.reread.toDict.map Prod.fst = s.toDict.map Prod.fst := by
  rw [toDict, toDict, List.map_cons, List.map_cons, keys_filterMap, keys_filterMap]
  simp only [reread, List.map_cons, List.map_nil, Option.isSome_map]

variable (lib : Libraries)

theorem mem_of_lastNamed {vs : List Variable} {name : String} {v : Variable}
    (h : lastNamed vs name = some v) : v ∈ vs := by
  induction vs with
  | nil => cases h
  | cons w vs ih =>
    rw [lastNamed, Option.or_eq_some_iff] at h
    rcases h with hlast | ⟨-, hfirst⟩
    · exact List.mem_cons_of_mem w (ih hlast)
    · split at hfirst
      next =>
        cases hfirst
        exact List.mem_cons_self
      next => cases hfirst

private theorem lastNamed_mapM {vs vs' : List Variable}
    (h : vs.mapM (Variable.reread lib) = some vs') (name : String) :
    lastNamed vs' name = (lastNamed vs name).bind (Variable.reread lib) := by
  induction vs generalizing vs' with
  | nil =>
    cases h
    rfl
  | cons v vs ih =>
    rw [List.mapM_cons] at h
    obtain ⟨v', hv, hrest⟩ := Option.bind_eq_some_iff.mp h
    obtain ⟨rest, hvs, hvs'⟩ := Option.bind_eq_some_iff.mp hrest
    cases hvs'
    rw [lastNamed, lastNamed, ih hvs, Variable.name_of_reread lib hv]
    cases hlast : lastNamed vs name with
    | some w =>
      obtain ⟨w', hw⟩ := Collect.exists_mapM_iff.mp ⟨_, hvs⟩ w (mem_of_lastNamed hlast)
      simp [hw]
    | none =>
      by_cases hname : v.name = name
      · simp [hname, hv]
      · simp [hname]

namespace VariablePool

/-- Validating a dump of the pool gives a pool that answers every selector as the pool does. -/
def Lossless (p : VariablePool) (ids : String → String → String) : Prop :=
  ∃ q, p.restore lib ids = some q ∧ ∀ selector, q.get lib selector = p.get lib selector

/-- What the constructor writes again, by its arguments, is what the pool stores, and every other
variable of the pool is one that its class keeps. -/
structure Kept (arguments p : VariablePool) : Prop where
  system : ∀ entry ∈ arguments.systemVariables.toDict, (p.lookup sys entry.1).isSome = true
  conversation : ∀ v ∈ arguments.conversationVariables,
    (p.lookup conversation v.name).isSome = true
  readable : ∀ v ∈ arguments.environmentVariables ++ arguments.conversationVariables,
    v.Readable lib
  environment : ∀ name v, lastNamed arguments.environmentVariables name = some v →
    p.lookup env name = v.reread lib
  rag : arguments.ragPipelineVariables = []
  stored : ∀ n x v, p.lookup n x = some v →
    (n = env ∧ (lastNamed arguments.environmentVariables x).isSome = true) ∨
      Portable v.valueType v.value

/-- The new ids of a restored pool are not those of stored variables. -/
def Fresh (p : VariablePool) (ids : String → String → String) : Prop :=
  ∀ n x v key, p.lookup n x = some v → ids rag key ≠ v.id

variable {lib} {p q : VariablePool} {ids : String → String → String}
  {d : OrderedDict String (OrderedDict String Variable)}

private theorem lookup_traverse
    (h : (p.variableDictionary.traverse fun node => node.traverse (Variable.reread lib)) = some d)
    (read : VariablePool) (hread : read.variableDictionary = d) (n x : String) :
    read.lookup n x = (p.lookup n x).bind (Variable.reread lib) := by
  unfold lookup
  rw [hread, OrderedDict.get_traverse h]
  cases hnode : p.variableDictionary.get n with
  | none => rfl
  | some node =>
    obtain ⟨node', hnode'⟩ := OrderedDict.exists_of_traverse h hnode
    rw [Option.bind_some, Option.bind_some, hnode']
    exact OrderedDict.get_traverse hnode' x

private theorem exists_reread
    (h : (p.variableDictionary.traverse fun node => node.traverse (Variable.reread lib)) = some d)
    {n x : String} {v : Variable} (hv : p.lookup n x = some v) : v.Readable lib := by
  obtain ⟨node, hnode, hx⟩ := Option.bind_eq_some_iff.mp hv
  obtain ⟨node', hnode'⟩ := OrderedDict.exists_of_traverse h hnode
  exact OrderedDict.exists_of_traverse hnode' hx

theorem restore_eq_some : p.restore lib ids = some q ↔ ∃ d env' conversation',
    (p.variableDictionary.traverse fun node => node.traverse (Variable.reread lib)) = some d ∧
      p.environmentVariables.mapM (Variable.reread lib) = some env' ∧
      p.conversationVariables.mapM (Variable.reread lib) = some conversation' ∧
      modelPostInit ⟨d, p.systemVariables.reread, env', conversation',
        p.ragPipelineVariables.map (·.reread)⟩ ids = some q := by
  simp only [restore, Option.bind_eq_bind, Option.bind_eq_some_iff]
  constructor
  · rintro ⟨d, hd, env', henv, conversation', hconversation, hq⟩
    exact ⟨d, env', conversation', hd, henv, hconversation, hq⟩
  · rintro ⟨d, env', conversation', hd, henv, hconversation, hq⟩
    exact ⟨d, hd, env', henv, conversation', hconversation, hq⟩

theorem modelPostInit_eq_some : p.modelPostInit ids = some q ↔ ∃ q₁ q₂ q₃,
    p.systemVariables.toDict.foldlM (fun q entry => q.addSystemVariable ids entry) p = some q₁ ∧
      p.environmentVariables.foldlM addEnvironmentVariable q₁ = some q₂ ∧
      p.conversationVariables.foldlM addConversationVariable q₂ = some q₃ ∧
      (ragPipelineVariablesMap p.ragPipelineVariables).foldlM
        (fun q entry => q.addRagPipelineVariable ids entry) q₃ = some q := by
  simp only [modelPostInit, Option.bind_eq_bind, Option.bind_eq_some_iff]
  constructor
  · rintro ⟨q₁, h₁, q₂, h₂, q₃, h₃, h⟩
    exact ⟨q₁, q₂, q₃, h₁, h₂, h₃, h⟩
  · rintro ⟨q₁, q₂, q₃, h₁, h₂, h₃, h⟩
    exact ⟨q₁, h₁, q₂, h₂, q₃, h₃, h⟩

theorem kept_of_lossless (hfresh : p.Fresh ids) (h : p.Lossless lib ids) :
    p.Kept lib p := by
  obtain ⟨q, hq, hget⟩ := h
  have hlookup := (get_eq_iff lib).mp hget
  obtain ⟨d, env', conversation', hd, henv, hconversation, hinit⟩ := restore_eq_some.mp hq
  obtain ⟨q₁, q₂, q₃, h₁, h₂, h₃, h₄⟩ := modelPostInit_eq_some.mp hinit
  simp only at h₁ h₂ h₃ h₄
  have hrag : p.ragPipelineVariables = [] := by
    by_contra hne
    obtain ⟨x, v, hv, hid⟩ := foldlM_rag
      (ragPipelineVariablesMap_ne_nil (mt List.map_eq_nil_iff.mp hne)) h₄
    exact hfresh rag x v x ((hlookup rag x).symm.trans hv) hid.symm
  rw [hrag] at h₄
  obtain rfl : q₃ = q := Option.some.inj h₄
  obtain ⟨hsystem, hkeeps₁⟩ :=
    foldlM_keeps sys Prod.fst (fun _ _ _ hstep => addUnlessStored hstep) h₁
  obtain ⟨q₂', h₂', henvironment⟩ := foldlM_environment q₁ env'
  obtain rfl : q₂' = q₂ := Option.some.inj (h₂'.symm.trans h₂)
  obtain ⟨hstored, hkeeps₃⟩ :=
    foldlM_keeps conversation Variable.name (fun _ _ _ hstep => addUnlessStored hstep) h₃
  have hlast := lastNamed_mapM lib henv
  refine ⟨?_, ?_, ?_, ?_, hrag, ?_⟩
  · intro entry hentry
    have hkey : entry.1 ∈ p.systemVariables.reread.toDict.map Prod.fst := by
      rw [SystemVariable.keys_reread]
      exact List.mem_map_of_mem hentry
    obtain ⟨entry', hmem, hname⟩ := List.mem_map.mp hkey
    obtain ⟨v, hv⟩ := Option.isSome_iff_exists.mp (hsystem entry' hmem)
    have hv₂ : q₂'.lookup sys entry.1 = some v := by
      rw [henvironment, if_neg (by decide), ← hname, hv]
    rw [← hlookup, hkeeps₃ _ _ _ hv₂]
    rfl
  · intro v hv
    obtain ⟨v', hv'⟩ := Collect.exists_mapM_iff.mp ⟨_, hconversation⟩ v hv
    have hmem := (Collect.mem_mapM hconversation).mpr ⟨v, hv, hv'⟩
    rw [← hlookup, ← Variable.name_of_reread lib hv']
    exact hstored v' hmem
  · intro v hv
    rcases List.mem_append.mp hv with hv | hv
    · exact Collect.exists_mapM_iff.mp ⟨_, henv⟩ v hv
    · exact Collect.exists_mapM_iff.mp ⟨_, hconversation⟩ v hv
  · intro name v hv
    obtain ⟨v', hv'⟩ := Collect.exists_mapM_iff.mp ⟨_, henv⟩ v (mem_of_lastNamed hv)
    have hv₂ : q₂'.lookup env name = some v' := by
      rw [henvironment, if_pos rfl, hlast, hv, Option.bind_some, hv', Option.some_or]
    rw [← hlookup, hkeeps₃ _ _ _ hv₂, hv']
  · intro n x v hv
    by_cases hwritten : n = env ∧ (lastNamed p.environmentVariables x).isSome = true
    · exact .inl hwritten
    · refine .inr ((Variable.reread_eq_self_iff lib).mp ?_)
      obtain ⟨v', hv'⟩ := exists_reread hd hv
      have hread := lookup_traverse hd ⟨d, p.systemVariables.reread, env', conversation',
        p.ragPipelineVariables.map (·.reread)⟩ rfl n x
      rw [hv, Option.bind_some, hv'] at hread
      have hv₂ : q₂'.lookup n x = some v' := by
        rw [henvironment, hkeeps₁ _ _ _ hread]
        split
        next hn =>
          rw [hlast, Option.not_isSome_iff_eq_none.mp fun h => hwritten ⟨hn, h⟩]
          rfl
        next => rfl
      rw [hv', ← hkeeps₃ _ _ _ hv₂, hlookup, hv]

private theorem exists_traverse (h : p.Kept lib p) :
    ∃ d, (p.variableDictionary.traverse fun node => node.traverse (Variable.reread lib)) =
      some d := by
  refine OrderedDict.exists_traverse fun entry hentry => ?_
  refine OrderedDict.exists_traverse fun entry' hentry' => ?_
  have hlookup : p.lookup entry.1 entry'.1 = some entry'.2 := by
    rw [lookup, OrderedDict.mem_iff.mp hentry]
    exact OrderedDict.mem_iff.mp hentry'
  rcases h.stored _ _ _ hlookup with ⟨henv, hwritten⟩ | hportable
  · obtain ⟨v, hv⟩ := Option.isSome_iff_exists.mp hwritten
    have hread := h.environment _ v hv
    rw [← henv, hlookup] at hread
    exact Variable.readable_of_reread lib hread.symm
  · exact ⟨_, (Variable.reread_eq_self_iff lib).mpr hportable⟩

theorem lossless_of_kept (h : p.Kept lib p) : p.Lossless lib ids := by
  obtain ⟨d, hd⟩ := exists_traverse h
  obtain ⟨hreadable, hreadable'⟩ := List.forall_mem_append.mp h.readable
  obtain ⟨env', henv⟩ := Collect.exists_mapM_iff.mpr hreadable
  obtain ⟨conversation', hconversation⟩ := Collect.exists_mapM_iff.mpr hreadable'
  let read : VariablePool := ⟨d, p.systemVariables.reread, env', conversation',
    p.ragPipelineVariables.map (·.reread)⟩
  have hread : ∀ n x, read.lookup n x = (p.lookup n x).bind (Variable.reread lib) :=
    lookup_traverse hd read rfl
  have hsome {n x : String} (hp : (p.lookup n x).isSome = true) :
      (read.lookup n x).isSome = true := by
    obtain ⟨v, hv⟩ := Option.isSome_iff_exists.mp hp
    obtain ⟨v', hv'⟩ := exists_reread hd hv
    rw [hread, hv, Option.bind_some, hv']
    rfl
  obtain ⟨q, hq, hlookup⟩ := foldlM_environment read env'
  refine ⟨q, restore_eq_some.mpr ⟨d, env', conversation', hd, henv, hconversation,
    modelPostInit_eq_some.mpr ⟨read, q, q, ?_, hq, ?_, ?_⟩⟩, ?_⟩
  · refine foldlM_eq_self fun entry hentry => if_pos (hsome ?_)
    have hkey : entry.1 ∈ p.systemVariables.toDict.map Prod.fst := by
      rw [← SystemVariable.keys_reread]
      exact List.mem_map_of_mem hentry
    obtain ⟨entry', hmem, hname⟩ := List.mem_map.mp hkey
    rw [← hname]
    exact h.system entry' hmem
  · refine foldlM_eq_self fun v' hv' => if_pos ?_
    obtain ⟨v, hmem, hv⟩ := (Collect.mem_mapM hconversation).mp hv'
    rw [hlookup, if_neg (by decide), Variable.name_of_reread lib hv]
    exact hsome (h.conversation v hmem)
  · simp only [h.rag, List.map_nil]
    rfl
  · refine (get_eq_iff lib).mpr fun n x => ?_
    rw [hlookup, hread, lastNamed_mapM lib henv]
    by_cases hwritten : n = env ∧ (lastNamed p.environmentVariables x).isSome = true
    · obtain ⟨rfl, hlast⟩ := hwritten
      obtain ⟨v, hv⟩ := Option.isSome_iff_exists.mp hlast
      obtain ⟨v', hv'⟩ := hreadable v (mem_of_lastNamed hv)
      rw [if_pos rfl, h.environment x v hv, hv, Option.bind_some, hv', Option.some_or]
    · have hstored : (p.lookup n x).bind (Variable.reread lib) = p.lookup n x := by
        cases hv : p.lookup n x with
        | none => rfl
        | some v =>
          have hportable := (h.stored n x v hv).resolve_left hwritten
          exact (Variable.reread_eq_self_iff lib).mpr hportable
      rw [hstored]
      split
      next hn =>
        rw [Option.not_isSome_iff_eq_none.mp fun hlast => hwritten ⟨hn, hlast⟩]
        rfl
      next => rfl

/-! ### Runs -/

/-- What the constructor writes from. -/
def bootstrap (p : VariablePool) : SystemVariable × List Variable × List Variable ×
    List RAGPipelineVariableInput :=
  (p.systemVariables, p.environmentVariables, p.conversationVariables, p.ragPipelineVariables)

theorem bootstrap_add {selector : List String} {given : Given} {id : String}
    (h : p.add selector given id = some q) : q.bootstrap = p.bootstrap := by
  unfold add at h
  split at h
  next =>
    obtain ⟨v, -, rfl⟩ := Option.map_eq_some_iff.mp h
    rfl
  next => cases h

private theorem bootstrap_foldlM {α : Type} {f : VariablePool → α → Option VariablePool}
    (hstep : ∀ p a q, f p a = some q → q.bootstrap = p.bootstrap) {l : List α}
    (h : l.foldlM f p = some q) : q.bootstrap = p.bootstrap := by
  induction l generalizing p with
  | nil =>
    cases h
    rfl
  | cons a l ih =>
    rw [List.foldlM_cons] at h
    obtain ⟨r, hr, hrest⟩ := Option.bind_eq_some_iff.mp h
    exact (ih hrest).trans (hstep p a r hr)

private theorem bootstrap_addUnlessStored {nodeId name id : String} {given : Given}
    (h : (if (p.lookup nodeId name).isSome then some p else p.add [nodeId, name] given id) =
      some q) : q.bootstrap = p.bootstrap := by
  split at h
  next =>
    cases h
    rfl
  next => exact bootstrap_add h

private theorem bootstrap_modelPostInit (h : p.modelPostInit ids = some q) :
    q.bootstrap = p.bootstrap := by
  obtain ⟨q₁, q₂, q₃, h₁, h₂, h₃, h₄⟩ := modelPostInit_eq_some.mp h
  calc q.bootstrap
      = q₃.bootstrap := bootstrap_foldlM (fun _ _ _ hstep => bootstrap_add hstep) h₄
    _ = q₂.bootstrap := bootstrap_foldlM (fun _ _ _ hstep => bootstrap_addUnlessStored hstep) h₃
    _ = q₁.bootstrap := bootstrap_foldlM (fun _ _ _ hstep => bootstrap_add hstep) h₂
    _ = p.bootstrap := bootstrap_foldlM (fun _ _ _ hstep => bootstrap_addUnlessStored hstep) h₁

theorem bootstrap_apply (p : VariablePool) (o : Operation) :
    (p.apply o).bootstrap = p.bootstrap := by
  cases o with
  | add selector given id =>
    rw [apply]
    cases h : p.add selector given id with
    | none => rfl
    | some q => exact bootstrap_add h
  | remove selector =>
    match selector with
    | [] | [_] | _ :: _ :: _ => rfl

theorem bootstrap_run {arguments : VariablePool} {operations : List Operation}
    (h : arguments.run ids operations = some p) : p.bootstrap = arguments.bootstrap := by
  obtain ⟨built, hbuilt, rfl⟩ := Option.map_eq_some_iff.mp h
  rw [← bootstrap_modelPostInit hbuilt]
  clear h hbuilt
  induction operations generalizing built with
  | nil => rfl
  | cons o operations ih =>
    rw [List.foldl_cons, ih]
    exact bootstrap_apply built o

theorem Kept.of_bootstrap {arguments arguments' : VariablePool}
    (hsame : arguments.bootstrap = arguments'.bootstrap) (h : arguments.Kept lib p) :
    arguments'.Kept lib p := by
  obtain ⟨hsystem, henv, hconversation, hrag⟩ :
      arguments.systemVariables = arguments'.systemVariables ∧
        arguments.environmentVariables = arguments'.environmentVariables ∧
        arguments.conversationVariables = arguments'.conversationVariables ∧
        arguments.ragPipelineVariables = arguments'.ragPipelineVariables := by
    simpa [bootstrap] using hsame
  obtain ⟨h₁, h₂, h₃, h₄, h₅, h₆⟩ := h
  rw [hsystem] at h₁
  rw [hconversation] at h₂
  rw [henv, hconversation] at h₃
  rw [henv] at h₄ h₆
  rw [hrag] at h₅
  exact ⟨h₁, h₂, h₃, h₄, h₅, h₆⟩

/-- Which pools a snapshot loses nothing of, after any changes. -/
theorem lossless_iff {arguments : VariablePool} {ids' : String → String → String}
    {operations : List Operation} (hrun : arguments.run ids operations = some p)
    (hfresh : p.Fresh ids') : p.Lossless lib ids' ↔ arguments.Kept lib p := by
  have hsame := bootstrap_run hrun
  constructor
  · intro h
    exact (kept_of_lossless hfresh h).of_bootstrap hsame
  · intro h
    exact lossless_of_kept (h.of_bootstrap hsame.symm)

/-- Only an integer is read as one. -/
def strictInt : Value → Option Int
  | .int n => some n
  | _ => none

theorem strictInt_int (n : Int) : strictInt (.int n) = some n := rfl

/-- Classes that accept a value or refuse it. -/
def strictLibraries : Libraries where
  readInt := strictInt
  readInt_int := strictInt_int
  text _ := ""
  loads _ := none
  str _ := ""
  getAttr _ _ := .ok .none
  validate type value := if type.accepts value then some value else none
  validate_of_accepts _ _ h := if_pos h
  accepts_of_validate type value value' h := by
    split at h
    next haccepts =>
      cases h
      exact haccepts
    next => cases h

/-- An environment variable. -/
def greeting : Variable :=
  { id := "1", name := "greeting", selector := [env, "greeting"], valueType := .string,
    value := .str "hello" }

/-- The variable that lists no files. -/
def noFiles : Variable :=
  { id := "2", name := "files", selector := [sys, "files"], valueType := .arrayAny,
    value := .list [] }

/-- What a constructor is given. -/
def oneGreeting : VariablePool := { environmentVariables := [greeting] }

/-- The pool that it builds. -/
def greeted : VariablePool := (oneGreeting.store sys "files" noFiles).store env "greeting" greeting

/-- The pool with another value under the environment variable. -/
def parted : VariablePool :=
  greeted.store env "greeting" { greeting with id := "3", value := .str "bye" }

theorem Fresh.store (h : p.Fresh ids) {v : Variable} (hv : ∀ key, ids rag key ≠ v.id)
    (nodeId name : String) : (p.store nodeId name v).Fresh ids := by
  intro n x w key hw
  rw [lookup_store] at hw
  split at hw
  next =>
    cases hw
    exact hv key
  next => exact h n x w key hw

private theorem fresh_parted : parted.Fresh fun _ _ => "4" := by
  have hempty : oneGreeting.Fresh fun _ _ => "4" := fun _ _ _ _ h => nomatch h
  have hfiles := hempty.store (v := noFiles) (fun _ => (by decide : "4" ≠ "2")) sys "files"
  have hgreeted := hfiles.store (v := greeting) (fun _ => (by decide : "4" ≠ "1")) env "greeting"
  exact hgreeted.store (fun _ => (by decide : "4" ≠ "3")) env "greeting"

theorem lossless_iff_parted :
    parted.Lossless strictLibraries (fun _ _ => "4") ↔ oneGreeting.Kept strictLibraries parted :=
  @lossless_iff strictLibraries parted (fun _ _ => "2") oneGreeting (fun _ _ => "4")
    [.add [env, "greeting"] (.value (.str "bye")) "3"] rfl fresh_parted

/-- An environment variable that was changed has its first value after a snapshot. -/
theorem parted_not_lossless :
    oneGreeting.run (fun _ _ => "2") [.add [env, "greeting"] (.value (.str "bye")) "3"] =
      some parted ∧ ¬ parted.Lossless strictLibraries fun _ _ => "4" := by
  refine ⟨rfl, fun h => ?_⟩
  have hread := (kept_of_lossless fresh_parted h).environment "greeting" greeting rfl
  have hvalue : (parted.lookup env "greeting").map Variable.id = some "1" :=
    congrArg (Option.map Variable.id) hread
  exact absurd hvalue (by decide)

end VariablePool
end PlatformSpec.Snapshot
