import PlatformSpec.Base.Paging
import PlatformSpec.Base.Result

/-!
# Infinite scroll

Models `pagination_by_first_id` and `pagination_by_last_id` of `services/message_service.py`,
`pagination_by_last_id` of `services/conversation_service.py` and `get_paginated_workflow_runs` of
`repositories/sqlalchemy_api_workflow_run_repository.py`, with the rows that their queries match.
Each page is cut by a strict comparison on the column it is sorted by. How the database orders rows
of one time is left to it, query by query.
-/

namespace PlatformSpec.Service.Pagination

open Base Keyset

/-- `InfiniteScrollPagination`. -/
structure InfiniteScrollPagination (α : Type) where
  data : List α
  limit : Nat
  hasMore : Bool
  deriving DecidableEq

inductive PaginationError where
  | conversationNotExists
  | firstMessageNotExists
  | lastMessageNotExists
  | lastConversationNotExists
  | valueError (message : String)
  deriving DecidableEq

inductive User where
  | account (id : String)
  | endUser (id : String)
  deriving DecidableEq

structure Message where
  id : String
  conversationId : String
  createdAt : Int
  deriving DecidableEq

structure Conversation where
  id : String
  appId : String
  invokeFrom : Option String
  fromSource : String
  fromEndUserId : Option String
  fromAccountId : Option String
  createdAt : Int
  updatedAt : Int
  isDeleted : Bool
  deriving DecidableEq

structure WorkflowRun where
  id : String
  tenantId : String
  appId : String
  triggeredFrom : String
  status : String
  createdAt : Int
  deriving DecidableEq

/-- A table whose ids are UUIDs. -/
structure Table {α : Type} (id : α → String) where
  rows : List α
  ids_nodup : (rows.map id).Nodup
  id_ne_empty : ∀ row ∈ rows, id row ≠ ""

/-- `ORDER BY created_at DESC`, as a rank. -/
def newestFirst {α : Type} (createdAt : α → Int) (row : α) : Int := -createdAt row

section Scroll

variable {α : Type} (id : α → String) (createdAt : α → Int)

/-- What follows a query for `limit + 1` rows. -/
def cutPage (limit : Nat) (rows : List α) : InfiniteScrollPagination α :=
  if limit < rows.length then ⟨rows.dropLast, limit, true⟩ else ⟨rows, limit, false⟩

/-- The queries that messages and workflow runs share: the row of the cursor, then the rows before
it in time. -/
def scroll (o : RowOrder (newestFirst createdAt)) (query limit : Nat) (error : PaginationError)
    (base : List α) (lastId : Option String) :
    Except PaginationError (InfiniteScrollPagination α) :=
  match lastId.filter (· ≠ "") with
  | none => .ok (cutPage limit ((o.order query base).take (limit + 1)))
  | some lastId =>
    match base.find? fun row => id row = lastId with
    | none => .error error
    | some last => .ok (cutPage limit ((o.order query (base.filter fun row =>
        decide (createdAt row < createdAt last) && decide (id row ≠ id last))).take (limit + 1)))

end Scroll

/-! ## Messages -/

section Messages

variable (messages : Table Message.id) (conversations : Table Conversation.id) (appId : String)

/-- `from_source`, `from_end_user_id` and `from_account_id` are those of the user. -/
def ofUser (user : User) (c : Conversation) : Bool :=
  match user with
  | .endUser id =>
    c.fromSource = "api" && c.fromEndUserId = some id && c.fromAccountId = none
  | .account id =>
    c.fromSource = "console" && c.fromEndUserId = none && c.fromAccountId = some id

/-- `ConversationService.get_conversation`. -/
def getConversation (user : User) (conversationId : String) :
    Except PaginationError Conversation :=
  match conversations.rows.find? fun c =>
    c.id = conversationId && c.appId = appId && ofUser user c && !c.isDeleted with
  | none => .error .conversationNotExists
  | some conversation => .ok conversation

/-- The messages of a conversation. -/
def historyOf (conversation : Conversation) : List Message :=
  messages.rows.filter fun m => m.conversationId = conversation.id

/-- `pagination_by_first_id`; `asc` says whether `order` is `"asc"`. -/
def paginationByFirstId (o : RowOrder (newestFirst Message.createdAt)) (user : Option User)
    (conversationId : String) (limit : Nat) (asc : Bool) (query : Nat) (firstId : Option String) :
    Except PaginationError (InfiniteScrollPagination Message) :=
  match user with
  | none => .ok ⟨[], limit, false⟩
  | some user =>
    if conversationId = "" then .ok ⟨[], limit, false⟩
    else do
      let conversation ← getConversation conversations appId user conversationId
      let page ← scroll Message.id Message.createdAt o query limit .firstMessageNotExists
        (historyOf messages conversation) firstId
      return if asc then { page with data := page.data.reverse } else page

/-- `base_query` of `pagination_by_last_id`, with the conversation and the ids it is for. -/
def baseQuery (conversation : Option Conversation) (includeIds : Option (List String)) :
    List Message :=
  messages.rows.filter fun m =>
    conversation.all (fun c => m.conversationId = c.id) &&
      includeIds.all fun ids => ids.contains m.id

/-- The conversation that `pagination_by_last_id` looks up, if there is an id. -/
def lookUpConversation (user : User) :
    Option String → Except PaginationError (Option Conversation)
  | none => .ok none
  | some conversationId => some <$> getConversation conversations appId user conversationId

/-- `pagination_by_last_id` for messages. -/
def messagesByLastId (o : RowOrder (newestFirst Message.createdAt)) (user : Option User)
    (limit : Nat) (conversationId : Option String) (includeIds : Option (List String))
    (query : Nat) (lastId : Option String) :
    Except PaginationError (InfiniteScrollPagination Message) :=
  match user with
  | none => .ok ⟨[], limit, false⟩
  | some user => do
    let conversation ← lookUpConversation conversations appId user conversationId
    if includeIds = some [] then return ⟨[], limit, false⟩
    else
      scroll Message.id Message.createdAt o query limit .lastMessageNotExists
        (baseQuery messages conversation includeIds) lastId

end Messages

/-! ## Conversations -/

section Conversations

inductive SortField where
  | createdAt | updatedAt
  deriving DecidableEq

/-- `sort_by`: a column, with a minus sign for the descending direction. -/
structure SortBy where
  field : SortField
  desc : Bool
  deriving DecidableEq

/-- `getattr(conversation, sort_field)`. -/
def SortBy.value (sortBy : SortBy) (c : Conversation) : Int :=
  match sortBy.field with
  | .createdAt => c.createdAt
  | .updatedAt => c.updatedAt

/-- `sort_direction(getattr(Conversation, sort_field))`, as a rank. -/
def SortBy.rank (sortBy : SortBy) (c : Conversation) : Int :=
  if sortBy.desc then -sortBy.value c else sortBy.value c

/-- `_build_filter_condition`. -/
def buildFilterCondition (sortBy : SortBy) (reference c : Conversation) : Bool :=
  if sortBy.desc then decide (sortBy.value c < sortBy.value reference)
  else decide (sortBy.value reference < sortBy.value c)

variable (conversations : Table Conversation.id) (appId : String)

/-- The conversations that the statement selects before the cursor. -/
def conversationStatement (user : User) (invokeFrom : String) (includeIds : Option (List String))
    (excludeIds : Option (List String)) : List Conversation :=
  conversations.rows.filter fun c =>
    !c.isDeleted && c.appId = appId && ofUser user c &&
      (c.invokeFrom = none || c.invokeFrom = some invokeFrom) &&
      includeIds.all (fun ids => ids.contains c.id) &&
      excludeIds.all fun ids => ids.isEmpty || !ids.contains c.id

/-- Whether the statement selects rows beyond the last one of a full page. -/
def restCount (sortBy : SortBy) (limit : Nat) (statement page : List Conversation) : Bool :=
  decide (page.length = limit) && page.getLast?.any fun last =>
    decide (0 < (statement.filter (buildFilterCondition sortBy last)).length)

/-- The page of a statement. -/
def conversationPage (sortBy : SortBy) (o : RowOrder sortBy.rank) (query limit : Nat)
    (statement : List Conversation) : InfiniteScrollPagination Conversation :=
  let conversations := (o.order query statement).take limit
  ⟨conversations, limit, restCount sortBy limit statement conversations⟩

/-- `pagination_by_last_id` for conversations. -/
def conversationsByLastId (sortBy : SortBy) (o : RowOrder sortBy.rank) (user : Option User)
    (limit : Nat) (invokeFrom : String) (includeIds excludeIds : Option (List String))
    (query : Nat) (lastId : Option String) :
    Except PaginationError (InfiniteScrollPagination Conversation) :=
  match user with
  | none => .ok ⟨[], limit, false⟩
  | some user =>
    if includeIds = some [] then .ok ⟨[], limit, false⟩
    else
      let statement := conversationStatement conversations appId user invokeFrom includeIds
        excludeIds
      match lastId.filter (· ≠ "") with
      | none => .ok (conversationPage sortBy o query limit statement)
      | some lastId =>
        match statement.find? fun c => c.id = lastId with
        | none => .error .lastConversationNotExists
        | some last => .ok (conversationPage sortBy o query limit
            (statement.filter (buildFilterCondition sortBy last)))

end Conversations

/-! ## Workflow runs -/

/-- The workflow runs that `base_stmt` selects before the cursor. -/
def runStatement (runs : Table WorkflowRun.id) (tenantId appId : String)
    (triggeredFrom : List String) (status : Option String) : List WorkflowRun :=
  runs.rows.filter fun run =>
    run.tenantId = tenantId && run.appId = appId &&
      (triggeredFrom.isEmpty || triggeredFrom.contains run.triggeredFrom) &&
      (status.filter (· ≠ "")).all fun status => run.status = status

/-- `get_paginated_workflow_runs`. -/
def getPaginatedWorkflowRuns (runs : Table WorkflowRun.id)
    (o : RowOrder (newestFirst WorkflowRun.createdAt)) (tenantId appId : String)
    (triggeredFrom : List String) (limit : Nat) (status : Option String) (query : Nat)
    (lastId : Option String) : Except PaginationError (InfiniteScrollPagination WorkflowRun) :=
  scroll WorkflowRun.id WorkflowRun.createdAt o query limit
    (.valueError "Last workflow run not exists")
    (runStatement runs tenantId appId triggeredFrom status) lastId

/-! ## Following the pages -/

section Follow

variable {α : Type}

/-- The rows of a page, oldest first where `asc` says so. -/
def oriented (asc : Bool) (rows : List α) : List α := if asc then rows.reverse else rows

/-- Page after page until `has_more` is false. The cursor is the oldest row of a page, which stands
first where the page is reversed; then older pages are put before. -/
def listPages (id : α → String) (asc : Bool)
    (page : Nat → Option String → Except PaginationError (InfiniteScrollPagination α)) :
    Nat → Nat → Option String → Option (Except PaginationError (List α))
  | 0, _, _ => none
  | fuel + 1, query, cursor =>
    match page query cursor with
    | .error e => some (.error e)
    | .ok p =>
      if p.hasMore then
        let next := (if asc then p.data.head? else p.data.getLast?).map id
        (listPages id asc page fuel (query + 1) next).map fun rest =>
          rest.map fun older => if asc then older ++ p.data else p.data ++ older
      else some (.ok p.data)

/-- The pages are those of the rows beyond the cursor. -/
def Reads (id : α → String) (asc : Bool) {rank : α → Int} (o : RowOrder rank) (limit : Nat)
    (more : List α → List α → Bool) (base : List α)
    (page : Nat → Option String → Except PaginationError (InfiniteScrollPagination α)) : Prop :=
  ∀ query (last : Option α), (∀ row ∈ last, row ∈ base) → page query (last.map id) =
    .ok ⟨oriented asc ((o.order query (beyond rank last base)).take limit), limit,
      more (beyond rank last base) ((o.order query (beyond rank last base)).take limit)⟩

/-- The pages list every row exactly once, in the sort order, if and only if no page ends between
rows of one time. -/
def ListsAllIff (id : α → String) (asc : Bool) (rank : α → Int) (limit : Nat) (base : List α)
    (page : Nat → Option String → Except PaginationError (InfiniteScrollPagination α)) : Prop :=
  ∃ listing, listPages id asc page (base.length + 1) 0 none = some (.ok listing) ∧
    (Lists rank base (oriented asc listing) ↔ BoundariesDiffer limit (ranks rank base))

variable {id : α → String} {asc : Bool} {rank : α → Int} {o : RowOrder rank} {limit : Nat}
  {more : List α → List α → Bool} {base : List α}
  {page : Nat → Option String → Except PaginationError (InfiniteScrollPagination α)}

private theorem oriented_oriented (rows : List α) : oriented asc (oriented asc rows) = rows := by
  cases asc with
  | false => rfl
  | true => exact List.reverse_reverse rows

theorem listPages_eq (hlimit : 0 < limit) (htells : Tells o limit more)
    (hreads : Reads id asc o limit more base page) (fuel query : Nat) {last : Option α}
    (hlast : ∀ row ∈ last, row ∈ base) : listPages id asc page fuel query (last.map id) =
      (follow o limit more fuel query (beyond rank last base)).map fun listing =>
        .ok (oriented asc listing) := by
  induction fuel generalizing query last with
  | zero => rfl
  | succ fuel ih =>
    rw [listPages, hreads query last hlast, follow]
    dsimp only
    cases hmore : more (beyond rank last base)
        ((o.order query (beyond rank last base)).take limit) with
    | false => rfl
    | true =>
      rw [if_pos rfl, if_pos rfl]
      have hlong := htells.only query _ hmore
      have hpage : (o.order query (beyond rank last base)).take limit ≠ [] := by
        rw [ne_eq, List.take_eq_nil_iff, not_or]
        refine ⟨Nat.ne_of_gt hlimit, fun hnil => ?_⟩
        rw [← (o.perm query _).length_eq, hnil] at hlong
        cases hlong
      obtain ⟨next, hnext⟩ := Option.ne_none_iff_exists'.mp (mt List.getLast?_eq_none_iff.mp hpage)
      have hmem : next ∈ beyond rank last base := by
        rw [← (o.perm query _).mem_iff]
        exact List.mem_of_mem_take (List.mem_of_getLast? hnext)
      have hcursor : (if asc then (oriented asc ((o.order query (beyond rank last base)).take
          limit)).head? else (oriented asc ((o.order query (beyond rank last base)).take
          limit)).getLast?) = some next := by
        cases asc with
        | false => exact hnext
        | true =>
          rw [if_pos rfl, oriented, if_pos rfl, List.head?_reverse]
          exact hnext
      rw [hcursor, ih (query + 1) (fun row hrow => by
        rw [← Option.some.inj hrow]
        exact beyond_subset _ _ hmem), hnext, beyond_beyond hmem, Option.map_map, Option.map_map]
      congr 1
      funext rest
      cases asc with
      | false => rfl
      | true => exact congrArg Except.ok List.reverse_append.symm

theorem Reads.listsAllIff (hreads : Reads id asc o limit more base page)
    (hlimit : 0 < limit) (htells : Tells o limit more) :
    ListsAllIff id asc rank limit base page := by
  obtain ⟨listing, hlisting, -, hiff⟩ :=
    @follow_lists_iff α Int _ rank o limit 0 base more hlimit htells _ (Nat.lt_succ_self _)
  have hlast : ∀ row ∈ (none : Option α), row ∈ base := fun row hrow => nomatch hrow
  have heq := listPages_eq hlimit htells hreads (base.length + 1) 0 hlast
  rw [Option.map_none, beyond, hlisting] at heq
  refine ⟨oriented asc listing, heq, ?_⟩
  rw [oriented_oriented, hiff]

end Follow

/-! ## Each service -/

section Scroll

variable {α : Type} {id : α → String} {createdAt : α → Int}
  {o : RowOrder (newestFirst createdAt)} {limit query : Nat} {base : List α}

theorem tells_of_length {rank : α → Int} (o : RowOrder rank) (limit : Nat) :
    Tells o limit fun rows _ => decide (limit < rows.length) where
  only _ _ h := of_decide_eq_true h
  always _ _ h _ := decide_eq_true h

theorem cutPage_eq {rows : List α} : cutPage limit (rows.take (limit + 1)) =
    ⟨rows.take limit, limit, decide (limit < rows.length)⟩ := by
  rw [cutPage, List.length_take]
  by_cases hlong : limit < rows.length
  · rw [if_pos (by omega), List.dropLast_eq_take, List.take_take, List.length_take,
      decide_eq_true hlong, show min (min (limit + 1) rows.length - 1) (limit + 1) = limit by omega]
  · rw [if_neg (by omega), List.take_of_length_le (by omega), List.take_of_length_le (by omega),
      decide_eq_false hlong]

private theorem find?_id {row : α} (hnodup : (base.map id).Nodup) (h : row ∈ base) :
    base.find? (fun r => id r = id row) = some row := by
  induction base with
  | nil => cases h
  | cons first base ih =>
    rw [List.map_cons, List.nodup_cons] at hnodup
    by_cases hsame : id first = id row
    · rw [List.find?_cons_of_pos (by exact decide_eq_true hsame)]
      cases List.mem_cons.mp h with
      | inl he => rw [he]
      | inr hmem => exact absurd (hsame ▸ List.mem_map_of_mem (f := id) hmem) hnodup.1
    · rw [List.find?_cons_of_neg (by simpa using hsame)]
      cases List.mem_cons.mp h with
      | inl he => exact absurd (he ▸ rfl) hsame
      | inr hmem => exact ih hnodup.2 hmem

private theorem filter_before (hnodup : (base.map id).Nodup) {last : α} (hlast : last ∈ base) :
    (base.filter fun row => decide (createdAt row < createdAt last) && decide (id row ≠ id last)) =
      beyond (newestFirst createdAt) (some last) base := by
  apply List.filter_congr
  intro row hrow
  rw [← Bool.decide_and, decide_eq_decide, newestFirst, newestFirst, Int.neg_lt_neg_iff]
  refine ⟨And.left, fun hlt => ⟨hlt, fun hid => ?_⟩⟩
  rw [List.inj_on_of_nodup_map hnodup hrow hlast hid] at hlt
  exact lt_irrefl _ hlt

private theorem scroll_reads (hnodup : (base.map id).Nodup) (hid : ∀ row ∈ base, id row ≠ "")
    (error : PaginationError) : Reads id false o limit (fun rows _ => decide (limit < rows.length))
      base (fun query lastId => scroll id createdAt o query limit error base lastId) := by
  intro query last hlast
  cases last with
  | none =>
    show Except.ok (cutPage limit _) = _
    rw [cutPage_eq, (o.perm query base).length_eq]
    rfl
  | some last =>
    have hmem := hlast last rfl
    have hgiven : (some (id last)).filter (· ≠ "") = some (id last) :=
      Option.filter_some_pos (decide_eq_true (hid last hmem))
    simp only [scroll, Option.map_some, hgiven, find?_id hnodup hmem]
    rw [filter_before hnodup hmem, cutPage_eq, (o.perm query _).length_eq]
    rfl

end Scroll

section Services

variable {limit : Nat} {user : User}

theorem Table.selected {α : Type} {id : α → String} (t : Table id) (p : α → Bool) :
    ((t.rows.filter p).map id).Nodup ∧ ∀ row ∈ t.rows.filter p, id row ≠ "" :=
  ⟨t.ids_nodup.sublist (List.filter_sublist.map _),
    fun row hrow => t.id_ne_empty row (List.mem_filter.mp hrow).1⟩

variable {conversations : Table Conversation.id} {appId conversationId : String}
  {conversation : Conversation}

private theorem getConversation_id
    (h : getConversation conversations appId user conversationId = .ok conversation) :
    conversationId ≠ "" := by
  rw [getConversation] at h
  cases hfind : conversations.rows.find? fun c =>
      c.id = conversationId && c.appId = appId && ofUser user c && !c.isDeleted with
  | none =>
    rw [hfind] at h
    cases h
  | some c =>
    have hpass := List.find?_some hfind
    have hmem := List.mem_of_find?_eq_some hfind
    simp only [Bool.and_eq_true, decide_eq_true_eq] at hpass
    rw [← hpass.1.1.1]
    exact conversations.id_ne_empty c hmem

private theorem filter_build (sortBy : SortBy) (reference : Conversation)
    (rows : List Conversation) : rows.filter (buildFilterCondition sortBy reference) =
      beyond sortBy.rank (some reference) rows := by
  apply List.filter_congr
  intro c _
  rw [buildFilterCondition, SortBy.rank, SortBy.rank]
  split
  · rw [decide_eq_decide, Int.neg_lt_neg_iff]
  · rfl

theorem tells_of_restCount (sortBy : SortBy) (o : RowOrder sortBy.rank)
    (hlimit : 0 < limit) :
    Tells o limit (restCount sortBy limit) where
  only query rows h := by
    rw [restCount, Bool.and_eq_true, Option.any_eq_true] at h
    obtain ⟨-, last, hlast, hrest⟩ := h
    obtain ⟨c, hc⟩ := List.exists_mem_of_length_pos (of_decide_eq_true hrest)
    rw [filter_build] at hc
    have hbeyond := of_decide_eq_true (List.mem_filter.mp hc).2
    -- otherwise the page holds all rows, and the last one ranks highest
    by_contra hshort
    rw [List.take_of_length_le (by rw [(o.perm query rows).length_eq]; omega)] at hlast
    obtain ⟨front, hfront⟩ := List.getLast?_eq_some_iff.mp hlast
    have hsorted := o.sorted query rows
    have hmem := (o.perm query rows).mem_iff.mpr (List.mem_filter.mp hc).1
    rw [hfront] at hsorted hmem
    cases List.mem_append.mp hmem with
    | inl hbefore =>
      have hle := (List.pairwise_append.mp hsorted).2.2 c hbefore last (List.mem_singleton_self _)
      exact absurd hbeyond (not_lt.mpr hle)
    | inr hsame =>
      rw [List.mem_singleton.mp hsame] at hbeyond
      exact lt_irrefl _ hbeyond
  always query rows h hdiffer := by
    obtain ⟨front, last, next, rest, hboundary⟩ := exists_boundary o query hlimit h
    have hnext : next ∈ rows :=
      hboundary.perm.subset (List.mem_append_right _ List.mem_cons_self)
    rw [hboundary.getElem?_last, hboundary.getElem?_next, ne_eq, Option.some_inj] at hdiffer
    rw [restCount, hboundary.take, List.getLast?_concat, hboundary.length, decide_eq_true rfl,
      Bool.true_and, Option.any_some, decide_eq_true_eq, filter_build]
    apply List.length_pos_of_mem
    apply List.mem_filter.mpr
    exact ⟨hnext, decide_eq_true (lt_of_le_of_ne hboundary.last_le_next hdiffer)⟩

variable {messages : Table Message.id}

private theorem firstId_reads (o : RowOrder (newestFirst Message.createdAt)) (asc : Bool)
    (h : getConversation conversations appId user conversationId = .ok conversation) :
    Reads Message.id asc o limit (fun rows _ => decide (limit < rows.length))
      (historyOf messages conversation)
      (paginationByFirstId messages conversations appId o (some user)
        conversationId limit asc) := by
  intro query last hlast
  have hrows := messages.selected fun m => decide (m.conversationId = conversation.id)
  have hread : scroll Message.id Message.createdAt o query limit _ _ _ = _ :=
    scroll_reads hrows.1 hrows.2 .firstMessageNotExists query last hlast
  rw [paginationByFirstId, if_neg (getConversation_id h), h]
  show (scroll _ _ _ _ _ _ (historyOf messages conversation) _ >>= _) = _
  rw [historyOf, hread]
  cases asc with
  | false => rfl
  | true => rfl

theorem reads_nil {α : Type} {id : α → String} {rank : α → Int} (o : RowOrder rank)
    {more : List α → List α → Bool} (hmore : more [] [] = false)
    {page : Nat → Option String → Except PaginationError (InfiniteScrollPagination α)}
    (h : ∀ query cursor, page query cursor = .ok ⟨[], limit, false⟩) :
    Reads id false o limit more [] page := by
  intro query last hlast
  cases last with
  | some last => exact absurd (hlast last rfl) List.not_mem_nil
  | none =>
    have horder : o.order query [] = [] := List.perm_nil.mp (o.perm query [])
    rw [h, beyond, horder, List.take_nil, hmore]
    rfl

private theorem lastId_reads {conversationId : Option String} {conversation : Option Conversation}
    (o : RowOrder (newestFirst Message.createdAt)) (includeIds : Option (List String))
    (h : lookUpConversation conversations appId user conversationId = .ok conversation) :
    Reads Message.id false o limit (fun rows _ => decide (limit < rows.length))
      (baseQuery messages conversation includeIds)
      (messagesByLastId messages conversations appId o (some user) limit conversationId
        includeIds) := by
  by_cases hempty : includeIds = some []
  · have hbase : baseQuery messages conversation includeIds = [] := by
      rw [baseQuery, hempty, List.filter_eq_nil_iff]
      intro m _
      rw [Option.all_some, List.contains_nil, Bool.and_false]
      exact Bool.false_ne_true
    rw [hbase]
    apply reads_nil o rfl
    intro query cursor
    rw [messagesByLastId, h]
    exact if_pos hempty
  · intro query last hlast
    have hrows := messages.selected fun m =>
      conversation.all (fun c => m.conversationId = c.id) &&
        includeIds.all fun ids => ids.contains m.id
    rw [messagesByLastId, h]
    show (if includeIds = some [] then _ else _) = _
    rw [if_neg hempty]
    exact scroll_reads hrows.1 hrows.2 .lastMessageNotExists query last hlast

private theorem conversations_reads
    {sortBy : SortBy} (o : RowOrder sortBy.rank) (invokeFrom : String)
    (includeIds excludeIds : Option (List String)) (hlimit : 0 < limit) :
    Reads Conversation.id false o limit (restCount sortBy limit)
      (conversationStatement conversations appId user invokeFrom includeIds excludeIds)
      (conversationsByLastId conversations appId sortBy o (some user) limit invokeFrom includeIds
        excludeIds) := by
  by_cases hempty : includeIds = some []
  · have hbase : conversationStatement conversations appId user invokeFrom includeIds excludeIds =
        [] := by
      rw [conversationStatement, hempty, List.filter_eq_nil_iff]
      intro c _
      rw [Option.all_some, List.contains_nil, Bool.and_false, Bool.false_and]
      exact Bool.false_ne_true
    rw [hbase]
    apply reads_nil o
    · rw [restCount, List.length_nil, decide_eq_false (Nat.ne_of_lt hlimit), Bool.false_and]
    · intro query cursor
      exact if_pos hempty
  · obtain ⟨hnodup, hid⟩ := conversations.selected fun c =>
      !c.isDeleted && c.appId = appId && ofUser user c &&
        (c.invokeFrom = none || c.invokeFrom = some invokeFrom) &&
        includeIds.all (fun ids => ids.contains c.id) &&
        excludeIds.all fun ids => ids.isEmpty || !ids.contains c.id
    intro query last hlast
    show (if includeIds = some [] then _ else _) = _
    rw [if_neg hempty]
    cases last with
    | none => rfl
    | some last =>
      have hmem := hlast last rfl
      have hgiven : (some last.id).filter (· ≠ "") = some last.id :=
        Option.filter_some_pos (decide_eq_true (hid last hmem))
      have hfind := find?_id hnodup hmem
      rw [conversationStatement] at hmem ⊢
      simp only [Option.map_some, hgiven, hfind]
      rw [filter_build]
      rfl

variable (limit user)

/-- Following the cursors until there is no more lists every matching row exactly once, in the sort
order, if and only if no page ends between rows of one time: for messages by the first and by the
last id, for conversations in each sort order, and for workflow runs. -/
theorem lists_all_iff (hlimit : 0 < limit) (messages : Table Message.id)
    (conversations : Table Conversation.id) (runs : Table WorkflowRun.id) (appId : String) :
    (∀ (o : RowOrder (newestFirst Message.createdAt)) conversationId conversation asc,
      getConversation conversations appId user conversationId = .ok conversation →
      ListsAllIff Message.id asc (newestFirst Message.createdAt) limit
        (historyOf messages conversation)
        (paginationByFirstId messages conversations appId o (some user) conversationId limit asc)) ∧
    (∀ (o : RowOrder (newestFirst Message.createdAt)) conversationId conversation includeIds,
      lookUpConversation conversations appId user conversationId = .ok conversation →
      ListsAllIff Message.id false (newestFirst Message.createdAt) limit
        (baseQuery messages conversation includeIds)
        (messagesByLastId messages conversations appId o (some user) limit conversationId
          includeIds)) ∧
    (∀ sortBy (o : RowOrder (SortBy.rank sortBy)) invokeFrom includeIds excludeIds,
      ListsAllIff Conversation.id false sortBy.rank limit
        (conversationStatement conversations appId user invokeFrom includeIds excludeIds)
        (conversationsByLastId conversations appId sortBy o (some user) limit invokeFrom includeIds
          excludeIds)) ∧
    (∀ (o : RowOrder (newestFirst WorkflowRun.createdAt)) tenantId triggeredFrom status,
      ListsAllIff WorkflowRun.id false (newestFirst WorkflowRun.createdAt) limit
        (runStatement runs tenantId appId triggeredFrom status)
        (getPaginatedWorkflowRuns runs o tenantId appId triggeredFrom limit status)) := by
  refine ⟨?_, ?_, ?_, ?_⟩
  · intro o conversationId conversation asc h
    exact (firstId_reads o asc h).listsAllIff hlimit (tells_of_length o limit)
  · intro o conversationId conversation includeIds h
    exact (lastId_reads o includeIds h).listsAllIff hlimit (tells_of_length o limit)
  · intro sortBy o invokeFrom includeIds excludeIds
    exact (conversations_reads o invokeFrom includeIds excludeIds hlimit).listsAllIff hlimit
      (tells_of_restCount sortBy o hlimit)
  · intro o tenantId triggeredFrom status
    have hrows := runs.selected fun run =>
      run.tenantId = tenantId && run.appId = appId &&
        (triggeredFrom.isEmpty || triggeredFrom.contains run.triggeredFrom) &&
        (status.filter (· ≠ "")).all fun status => run.status = status
    exact (scroll_reads hrows.1 hrows.2 _).listsAllIff hlimit (tells_of_length o limit)

end Services

/-! ## Rows of one time -/

private def someConversation : Conversation :=
  ⟨"c", "app", none, "console", none, some "u", 1, 1, false⟩

private def message (id : String) (createdAt : Int) : Message := ⟨id, "c", createdAt⟩

/-- Two runs that were created at one time. -/
private def twin (id : String) : WorkflowRun := ⟨id, "t", "app", "debugging", "succeeded", 1⟩

private theorem pair_nodup : ["1", "2"].Nodup := by decide

private theorem pair_ne_empty {α : Type} {id : α → String} {a b : α} (ha : id a = "1")
    (hb : id b = "2") : ∀ row ∈ [a, b], id row ≠ "" := by
  intro row hrow
  cases List.mem_cons.mp hrow with
  | inl h =>
    rw [h, ha]
    decide
  | inr h =>
    rw [List.mem_singleton.mp h, hb]
    decide

private def someMessages : Table Message.id :=
  ⟨[message "1" 1, message "2" 2], pair_nodup, pair_ne_empty rfl rfl⟩

private def twinRuns : Table WorkflowRun.id :=
  ⟨[twin "1", twin "2"], pair_nodup, pair_ne_empty rfl rfl⟩

private theorem conversation_ne_empty : ∀ c ∈ [someConversation], c.id ≠ "" := by
  intro c hc
  rw [List.mem_singleton.mp hc]
  decide

private def someConversations : Table Conversation.id :=
  ⟨[someConversation], List.nodup_singleton _, conversation_ne_empty⟩

theorem lists_all_iff_sample :
    ListsAllIff Message.id true (newestFirst Message.createdAt) 1
      (historyOf someMessages someConversation)
      (paginationByFirstId someMessages someConversations "app" (RowOrder.stable _)
        (some (.account "u")) "c" 1 true) ∧
    ListsAllIff Message.id false (newestFirst Message.createdAt) 1
      (baseQuery someMessages (some someConversation) none)
      (messagesByLastId someMessages someConversations "app" (RowOrder.stable _)
        (some (.account "u")) 1 (some "c") none) :=
  have h := lists_all_iff 1 (.account "u") Nat.one_pos someMessages someConversations twinRuns "app"
  ⟨h.1 (RowOrder.stable _) "c" someConversation true rfl,
    h.2.1 (RowOrder.stable _) (some "c") (some someConversation) none rfl⟩

/-- Of two runs of one time the second is never listed by pages of one. -/
theorem twin_not_listed :
    listPages WorkflowRun.id false
      (getPaginatedWorkflowRuns twinRuns (RowOrder.stable _) "t" "app" [] 1 none) 3 0 none =
        some (.ok [twin "1"]) ∧
    ¬ Lists (newestFirst WorkflowRun.createdAt) (runStatement twinRuns "t" "app" [] none)
      [twin "1"] := by
  refine ⟨by decide +kernel, fun h => ?_⟩
  have hlength := h.perm.length_eq
  revert hlength
  decide

end PlatformSpec.Service.Pagination
