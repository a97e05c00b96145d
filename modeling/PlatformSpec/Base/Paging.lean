import Mathlib.Data.List.Sort

/-!
# Paging by a cursor

Items with pairwise different keys are listed in key order, a page at a time, each page
starting after the key of the last item seen. Items already seen may be removed in between.
Nothing here mentions a particular system.
-/

namespace PlatformSpec.Base.Paging

universe u v

variable {α : Type u} {κ : Type v} [LinearOrder κ] (key : α → κ)

/-- Items in key order. -/
def orderBy (l : List α) : List α := l.insertionSort fun a b => key a ≤ key b

/-- The item lies after the cursor, if there is one. -/
def after (cursor : Option κ) (a : α) : Bool := cursor.all fun c => decide (c < key a)

/-- The cursor after a number of items have been seen. -/
def cursorAt (l : List α) (n : Nat) : Option κ := ((orderBy key l).take n).getLast?.map key

variable {key} {l : List α}

/-- Ordering moves the items only. -/
theorem orderBy_perm (l : List α) : (orderBy key l).Perm l := List.perm_insertionSort _ l

@[simp] theorem mem_orderBy {a : α} : a ∈ orderBy key l ↔ a ∈ l := List.mem_insertionSort _

theorem pairwise_le (l : List α) : (orderBy key l).Pairwise fun a b => key a ≤ key b := by
  have : Std.Total fun a b => key a ≤ key b := ⟨fun a b => le_total (key a) (key b)⟩
  have : IsTrans α fun a b => key a ≤ key b := ⟨fun _ _ _ => le_trans⟩
  exact List.pairwise_insertionSort _ l

/-- Items with different keys are listed in strict order. -/
theorem pairwise_lt (hkey : (l.map key).Nodup) :
    (orderBy key l).Pairwise fun a b => key a < key b := by
  have hne : ((orderBy key l).map key).Nodup := ((orderBy_perm l).map key).nodup_iff.mpr hkey
  rw [List.Nodup, List.pairwise_map] at hne
  exact ((pairwise_le l).and hne).imp fun h => lt_of_le_of_ne h.1 h.2

/-- What is left after some items is what lies after the cursor. -/
theorem mem_drop_iff (hkey : (l.map key).Nodup) (n : Nat) (a : α) :
    a ∈ (orderBy key l).drop n ↔ a ∈ l ∧ after key (cursorAt key l n) a = true := by
  have hsplit := List.take_append_drop n (orderBy key l)
  have hlt := pairwise_lt hkey
  rw [← hsplit, List.pairwise_append] at hlt
  obtain ⟨hseen, -, hacross⟩ := hlt
  constructor
  · intro ha
    refine ⟨mem_orderBy.mp (List.mem_of_mem_drop ha), ?_⟩
    unfold after cursorAt
    cases hlast : ((orderBy key l).take n).getLast? with
    | none => rfl
    | some b => simpa using hacross b (List.mem_of_getLast? hlast) a ha
  · rintro ⟨ha, hafter⟩
    have ha : a ∈ orderBy key l := mem_orderBy.mpr ha
    rw [← hsplit, List.mem_append] at ha
    rcases ha with ha | ha
    · -- an item already seen is not after the last one seen
      exfalso
      have hle : ∀ b, ((orderBy key l).take n).getLast? = some b → key a ≤ key b := by
        intro b hb
        obtain ⟨front, hfront⟩ := List.getLast?_eq_some_iff.mp hb
        rw [hfront] at ha hseen
        rcases List.mem_append.mp ha with h | h
        · exact ((List.pairwise_append.mp hseen).2.2 a h b (List.mem_singleton_self b)).le
        · rw [List.mem_singleton.mp h]
      cases hlast : ((orderBy key l).take n).getLast? with
      | none => rw [List.getLast?_eq_none_iff.mp hlast] at ha; cases ha
      | some b =>
        unfold after cursorAt at hafter
        rw [hlast] at hafter
        exact absurd (of_decide_eq_true hafter) (not_lt.mpr (hle b hlast))
    · exact ha

/-- Items that are the ones left after some are listed as they were. -/
theorem orderBy_eq_drop (hkey : (l.map key).Nodup) {l' : List α} (hnodup : l'.Nodup) {n : Nat}
    (hmem : ∀ a, a ∈ l' ↔ a ∈ (orderBy key l).drop n) :
    orderBy key l' = (orderBy key l).drop n := by
  have hl : (orderBy key l).Nodup :=
    (orderBy_perm l).nodup_iff.mpr (List.Nodup.of_map key hkey)
  have hperm : (orderBy key l').Perm ((orderBy key l).drop n) :=
    (orderBy_perm l').trans ((List.perm_ext_iff_of_nodup hnodup (hl.sublist
      (List.drop_sublist n _))).mpr hmem)
  refine List.Perm.eq_of_pairwise ?_ (pairwise_le l')
    ((pairwise_le l).sublist (List.drop_sublist n _)) hperm
  intro a b ha hb hab hba
  have hinj := List.inj_on_of_nodup_map hkey
  exact hinj (mem_orderBy.mp (List.mem_of_mem_drop (hperm.mem_iff.mp ha)))
    (mem_orderBy.mp (List.mem_of_mem_drop hb)) (le_antisymm hab hba)

/-- A page that is not empty moves the cursor to its last item. -/
theorem cursorAt_add {n k : Nat} {last : α}
    (hlast : (((orderBy key l).drop n).take k).getLast? = some last) :
    cursorAt key l (n + k) = some (key last) := by
  unfold cursorAt
  rw [List.take_add, List.getLast?_append, hlast]
  rfl

end PlatformSpec.Base.Paging

/-!
## Pages by a rank that may repeat

Rows are listed by rank, a page at a time, each page taken from the rows that rank strictly after
the last one of the page before. Rows of one rank stand in any order, which may differ from query
to query. Nothing here mentions a particular system.
-/

namespace PlatformSpec.Base.Keyset

universe u v

variable {α : Type u} {κ : Type v} [LinearOrder κ] {rank : α → κ}

/-- An order of the rows of each query by rank. -/
structure RowOrder (rank : α → κ) where
  order : Nat → List α → List α
  perm : ∀ query rows, (order query rows).Perm rows
  sorted : ∀ query rows, (order query rows).Pairwise fun a b => rank a ≤ rank b

/-- Rows of one rank stand as they are given. -/
def RowOrder.stable (rank : α → κ) : RowOrder rank where
  order _ rows := rows.insertionSort fun a b => rank a ≤ rank b
  perm _ _ := List.perm_insertionSort _ _
  sorted _ _ :=
    have : Std.Total fun a b => rank a ≤ rank b := ⟨fun _ _ => le_total _ _⟩
    have : IsTrans α fun a b => rank a ≤ rank b := ⟨fun _ _ _ => le_trans⟩
    List.pairwise_insertionSort _ _

/-- Every row is listed exactly once, by rank. -/
structure Lists (rank : α → κ) (rows listing : List α) : Prop where
  perm : listing.Perm rows
  sorted : listing.Pairwise fun a b => rank a ≤ rank b

/-- The ranks of the rows in order. -/
def ranks (rank : α → κ) (rows : List α) : List κ := (rows.map rank).insertionSort (· ≤ ·)

/-- The last rank of each page differs from the first one of the next. -/
def BoundariesDiffer (limit : Nat) (ranks : List κ) : Prop :=
  ∀ i, 0 < i → i * limit < ranks.length → ranks[i * limit - 1]? ≠ ranks[i * limit]?

/-- The rows that rank after one. -/
def beyond (rank : α → κ) : Option α → List α → List α
  | none, rows => rows
  | some last, rows => rows.filter fun a => decide (rank last < rank a)

/-- Page after page, as long as there is said to be more after a page. -/
def follow (o : RowOrder rank) (limit : Nat) (more : List α → List α → Bool) :
    Nat → Nat → List α → Option (List α)
  | 0, _, _ => none
  | fuel + 1, query, rows =>
    let page := (o.order query rows).take limit
    if more rows page then
      (follow o limit more fuel (query + 1) (beyond rank page.getLast? rows)).map (page ++ ·)
    else some page

/-- What is said about more rows: only where there are some, and always where the next one ranks
after the page. -/
structure Tells (o : RowOrder rank) (limit : Nat) (more : List α → List α → Bool) : Prop where
  only : ∀ query rows, more rows ((o.order query rows).take limit) = true → limit < rows.length
  always : ∀ query rows, limit < rows.length →
    (ranks rank rows)[limit - 1]? ≠ (ranks rank rows)[limit]? →
    more rows ((o.order query rows).take limit) = true

variable {o : RowOrder rank} {limit query : Nat} {rows : List α} {keys : List κ}

/-! ## Ranks -/

/-- However the rows are ordered, their ranks are the same. -/
theorem map_rank_eq {listing : List α} (h : Lists rank rows listing) :
    listing.map rank = ranks rank rows := by
  apply List.Perm.eq_of_pairwise (fun a b _ _ hab hba => le_antisymm hab hba)
  · exact List.pairwise_map.mpr h.sorted
  · exact List.pairwise_insertionSort _ _
  · exact (h.perm.map rank).trans (List.perm_insertionSort _ _).symm

theorem lists_order (o : RowOrder rank) (query : Nat) (rows : List α) :
    Lists rank rows (o.order query rows) := ⟨o.perm query rows, o.sorted query rows⟩

theorem length_ranks : (ranks rank rows).length = rows.length := by
  rw [ranks, List.length_insertionSort, List.length_map]

omit [LinearOrder κ] in
theorem boundariesDiffer_of_le (h : keys.length ≤ limit) : BoundariesDiffer limit keys := by
  intro i hi hlt
  have hle := Nat.le_mul_of_pos_left limit hi
  omega

omit [LinearOrder κ] in
/-- The boundaries are the first one and those of what follows it. -/
theorem boundariesDiffer_iff (hlimit : 0 < limit) (hlt : limit < keys.length) :
    BoundariesDiffer limit keys ↔
      keys[limit - 1]? ≠ keys[limit]? ∧ BoundariesDiffer limit (keys.drop limit) := by
  constructor
  · intro h
    constructor
    · have hfirst := h 1 Nat.one_pos
      rw [Nat.one_mul] at hfirst
      exact hfirst hlt
    · intro i hi hmore
      rw [List.length_drop] at hmore
      have hnext := h (i + 1) (Nat.succ_pos i)
      rw [Nat.succ_mul] at hnext
      have hpos := Nat.mul_pos hi hlimit
      rw [List.getElem?_drop, List.getElem?_drop]
      rw [show limit + (i * limit - 1) = i * limit + limit - 1 by omega,
        show limit + i * limit = i * limit + limit by omega]
      exact hnext (by omega)
  · rintro ⟨hfirst, hrest⟩ i hi hmore
    cases i with
    | zero => exact absurd hi (Nat.lt_irrefl 0)
    | succ i =>
      cases Nat.eq_zero_or_pos i with
      | inl hzero =>
        rw [hzero, Nat.zero_add, Nat.one_mul]
        exact hfirst
      | inr hpos =>
        rw [Nat.succ_mul] at hmore
        have hprod := Nat.mul_pos hpos hlimit
        have hnext := hrest i hpos (by rw [List.length_drop]; omega)
        rw [List.getElem?_drop, List.getElem?_drop,
          show limit + (i * limit - 1) = i * limit + limit - 1 by omega,
          show limit + i * limit = i * limit + limit by omega] at hnext
        rw [Nat.succ_mul]
        exact hnext

private theorem beyond_perm {rows' : List α} {last : Option α} (h : rows'.Perm rows) :
    (beyond rank last rows').Perm (beyond rank last rows) := by
  cases last with
  | none => exact h
  | some last => exact h.filter _

/-- The rows beyond a row that is beyond another. -/
theorem beyond_beyond {last : Option α} {next : α} (h : next ∈ beyond rank last rows) :
    beyond rank (some next) (beyond rank last rows) = beyond rank (some next) rows := by
  cases last with
  | none => rfl
  | some last =>
    have hlt := of_decide_eq_true (List.mem_filter.mp h).2
    rw [beyond, beyond, beyond, List.filter_filter]
    apply List.filter_congr
    intro a _
    rw [← Bool.decide_and, decide_eq_decide]
    exact ⟨And.left, fun hnext => ⟨hnext, hlt.trans hnext⟩⟩

theorem beyond_subset (last : Option α) (rows : List α) : beyond rank last rows ⊆ rows := by
  cases last with
  | none => exact List.Subset.refl _
  | some last => exact List.filter_subset_self rows

/-! ## A boundary -/

/-- A full page with its last row, and the rows that follow it in the order of the query. -/
structure Boundary (o : RowOrder rank) (query limit : Nat) (rows front : List α) (last next : α)
    (rest : List α) : Prop where
  order : o.order query rows = (front ++ [last]) ++ next :: rest
  length : (front ++ [last]).length = limit

theorem exists_boundary (o : RowOrder rank) (query : Nat) (hlimit : 0 < limit)
    (hlt : limit < rows.length) :
    ∃ front last next rest, Boundary o query limit rows front last next rest := by
  have hlength : limit < (o.order query rows).length := by rwa [(o.perm query rows).length_eq]
  have htake : ((o.order query rows).take limit).length = limit := by
    rw [List.length_take, Nat.min_eq_left (Nat.le_of_lt hlength)]
  obtain ⟨front, last, hfront⟩ :
      ∃ front last, (o.order query rows).take limit = front ++ [last] := by
    rcases List.eq_nil_or_concat ((o.order query rows).take limit) with hnil | ⟨front, last, h⟩
    · rw [hnil] at htake
      exact absurd htake (Nat.ne_of_lt hlimit)
    · exact ⟨front, last, by rw [h, List.concat_eq_append]⟩
  obtain ⟨next, rest, hnext⟩ : ∃ next rest, (o.order query rows).drop limit = next :: rest := by
    cases hdrop : (o.order query rows).drop limit with
    | nil => exact absurd (List.drop_eq_nil_iff.mp hdrop) (Nat.not_le.mpr hlength)
    | cons next rest => exact ⟨next, rest, rfl⟩
  refine ⟨front, last, next, rest, ?_, by rw [← hfront, htake]⟩
  rw [← hfront, ← hnext, List.take_append_drop]

namespace Boundary

variable {front rest : List α} {last next : α}

theorem take (h : Boundary o query limit rows front last next rest) :
    (o.order query rows).take limit = front ++ [last] := by
  rw [h.order, ← h.length, List.take_left]

theorem perm (h : Boundary o query limit rows front last next rest) :
    ((front ++ [last]) ++ next :: rest).Perm rows := h.order ▸ o.perm query rows

theorem length_rows (h : Boundary o query limit rows front last next rest) :
    rows.length = limit + (next :: rest).length := by
  rw [← h.perm.length_eq, List.length_append, h.length]

theorem sorted (h : Boundary o query limit rows front last next rest) :
    ((front ++ [last]) ++ next :: rest).Pairwise fun a b => rank a ≤ rank b :=
  h.order ▸ o.sorted query rows

theorem front_le (h : Boundary o query limit rows front last next rest) :
    ∀ a ∈ front ++ [last], rank a ≤ rank last := by
  intro a ha
  cases List.mem_append.mp ha with
  | inl hold =>
    have hfront := (List.pairwise_append.mp h.sorted).1
    exact (List.pairwise_append.mp hfront).2.2 a hold last (List.mem_singleton_self _)
  | inr hlast => rw [List.mem_singleton.mp hlast]

theorem le_rest (h : Boundary o query limit rows front last next rest) :
    ∀ a ∈ next :: rest, rank next ≤ rank a := by
  intro a ha
  cases List.mem_cons.mp ha with
  | inl hsame => rw [hsame]
  | inr hrest =>
    have hrows := (List.pairwise_append.mp h.sorted).2.1
    exact (List.pairwise_cons.mp hrows).1 a hrest

theorem last_le_next (h : Boundary o query limit rows front last next rest) :
    rank last ≤ rank next :=
  (List.pairwise_append.mp h.sorted).2.2 last (List.mem_append_right _ List.mem_cons_self) next
    List.mem_cons_self

theorem ranks_eq (h : Boundary o query limit rows front last next rest) :
    ranks rank rows = (front ++ [last]).map rank ++ rank next :: rest.map rank := by
  rw [← map_rank_eq (lists_order o query rows), h.order, List.map_append, List.map_cons]

/-- The rank of the last row of the page. -/
theorem getElem?_last (h : Boundary o query limit rows front last next rest) :
    (ranks rank rows)[limit - 1]? = some (rank last) := by
  have hlength := h.length
  rw [List.length_append, List.length_singleton] at hlength
  rw [h.ranks_eq, ← List.map_cons, ← List.map_append, List.getElem?_map,
    List.getElem?_append_left (by simp; omega), List.getElem?_append_right (by omega),
    show limit - 1 - front.length = 0 by omega]
  rfl

/-- The rank of the row after it. -/
theorem getElem?_next (h : Boundary o query limit rows front last next rest) :
    (ranks rank rows)[limit]? = some (rank next) := by
  rw [h.ranks_eq, ← List.map_cons, ← List.map_append, List.getElem?_map,
    List.getElem?_append_right (Nat.le_of_eq h.length), h.length, Nat.sub_self]
  rfl

private theorem beyond_order (h : Boundary o query limit rows front last next rest) :
    beyond rank (some last) ((front ++ [last]) ++ next :: rest) =
      (next :: rest).filter fun a => decide (rank last < rank a) := by
  have hnone : (front ++ [last]).filter (fun a => decide (rank last < rank a)) = [] :=
    List.filter_eq_nil_iff.mpr fun a ha hpass =>
      absurd (of_decide_eq_true hpass) (not_lt.mpr (h.front_le a ha))
  rw [beyond, List.filter_append, hnone, List.nil_append]

/-- Where the ranks at a boundary differ, the rows beyond the page are those that follow it. -/
theorem perm_beyond (h : Boundary o query limit rows front last next rest)
    (hdiffer : rank last < rank next) : (next :: rest).Perm (beyond rank (some last) rows) := by
  have hall : (next :: rest).filter (fun a => decide (rank last < rank a)) = next :: rest :=
    List.filter_eq_self.mpr fun a ha => decide_eq_true (lt_of_lt_of_le hdiffer (h.le_rest a ha))
  have hbeyond := @beyond_perm _ _ _ rank _ _ (some last) h.perm
  rw [h.beyond_order, hall] at hbeyond
  exact hbeyond

/-- Where they are the same, a row is lost. -/
theorem length_beyond_lt (h : Boundary o query limit rows front last next rest)
    (hsame : rank last = rank next) :
    (beyond rank (some last) rows).length < (next :: rest).length := by
  have hnext : ¬ decide (rank last < rank next) = true := by
    rw [hsame, decide_eq_true_eq]
    exact lt_irrefl _
  have hbeyond := @beyond_perm _ _ _ rank _ _ (some last) h.perm
  rw [← hbeyond.length_eq, h.beyond_order,
    List.filter_cons_of_neg (p := fun a => decide (rank last < rank a)) hnext]
  exact Nat.lt_succ_of_le (List.length_filter_le _ _)

/-- The ranks beyond the page are the later ones. -/
theorem ranks_beyond (h : Boundary o query limit rows front last next rest)
    (hdiffer : rank last < rank next) :
    ranks rank (beyond rank (some last) rows) = (ranks rank rows).drop limit := by
  have hlists : Lists rank (beyond rank (some last) rows) (next :: rest) :=
    ⟨h.perm_beyond hdiffer, (List.pairwise_append.mp h.sorted).2.1⟩
  rw [← map_rank_eq hlists, h.ranks_eq, List.drop_left' (by rw [List.length_map, h.length])]
  rfl

/-- The page and a listing of the rows beyond it. -/
theorem lists_append_iff (h : Boundary o query limit rows front last next rest)
    (hdiffer : rank last < rank next) (listing : List α) :
    Lists rank rows (front ++ [last] ++ listing) ↔
      Lists rank (beyond rank (some last) rows) listing := by
  have hbeyond := h.perm_beyond hdiffer
  constructor
  · intro hall
    refine ⟨?_, hall.sorted.sublist (List.sublist_append_right _ _)⟩
    exact ((List.perm_append_left_iff _).mp (hall.perm.trans h.perm.symm)).trans hbeyond
  · intro hlater
    refine ⟨((hlater.perm.trans hbeyond.symm).append_left _).trans h.perm, ?_⟩
    rw [List.pairwise_append]
    refine ⟨(List.pairwise_append.mp h.sorted).1, hlater.sorted, fun a ha b hb => ?_⟩
    have hmem := (List.mem_filter.mp (hlater.perm.mem_iff.mp hb)).2
    exact (h.front_le a ha).trans (le_of_lt (of_decide_eq_true hmem))

/-- The boundaries are this one and those beyond the page. -/
theorem boundariesDiffer_iff (h : Boundary o query limit rows front last next rest)
    (hlimit : 0 < limit) : BoundariesDiffer limit (ranks rank rows) ↔
      rank last ≠ rank next ∧ BoundariesDiffer limit ((ranks rank rows).drop limit) := by
  have hlt : limit < (ranks rank rows).length := by
    rw [length_ranks, h.length_rows, List.length_cons]
    omega
  rw [Keyset.boundariesDiffer_iff hlimit hlt, h.getElem?_last, h.getElem?_next, ne_eq,
    Option.some_inj]

end Boundary

/-! ## All pages -/

/-- Following the pages ends, and lists every row exactly once by rank if and only if the ranks at
the boundaries of the pages differ. -/
theorem follow_lists_iff {more : List α → List α → Bool} (hlimit : 0 < limit)
    (htells : Tells o limit more) {fuel : Nat} (hfuel : rows.length < fuel) :
    ∃ listing, follow o limit more fuel query rows = some listing ∧
      listing.length ≤ rows.length ∧
      (Lists rank rows listing ↔ BoundariesDiffer limit (ranks rank rows)) := by
  induction fuel generalizing query rows with
  | zero => exact absurd hfuel (Nat.not_lt_zero _)
  | succ fuel ih =>
    by_cases hlt : limit < rows.length
    · obtain ⟨front, last, next, rest, h⟩ := exists_boundary o query hlimit hlt
      have htotal := h.length_rows
      have hlength := h.length
      rw [List.length_cons] at htotal
      rw [follow, h.take, h.boundariesDiffer_iff hlimit]
      cases hmore : more rows (front ++ [last]) with
      | false =>
        -- then the boundary falls among rows of one rank, and the rest is lost
        refine ⟨_, if_neg Bool.false_ne_true, by omega, ?_⟩
        apply iff_of_false
        · intro hlists
          have hsame := hlists.perm.length_eq
          omega
        · rintro ⟨hdiffer, -⟩
          have htrue := htells.always query rows hlt
            (by rwa [h.getElem?_last, h.getElem?_next, ne_eq, Option.some_inj])
          rw [h.take, hmore] at htrue
          cases htrue
      | true =>
        rw [if_pos rfl, List.getLast?_concat]
        cases lt_or_eq_of_le h.last_le_next with
        | inl hdiffer =>
          have hbeyond := (h.perm_beyond hdiffer).length_eq
          rw [List.length_cons] at hbeyond
          obtain ⟨listing, hlisting, hle, hiff⟩ :=
            @ih (query + 1) (beyond rank (some last) rows) (by omega)
          refine ⟨_, by rw [hlisting]; rfl, ?_, ?_⟩
          · rw [List.length_append]
            omega
          · rw [h.lists_append_iff hdiffer, hiff, h.ranks_beyond hdiffer,
              and_iff_right (ne_of_lt hdiffer)]
        | inr hsame =>
          have hlost := h.length_beyond_lt hsame
          rw [List.length_cons] at hlost
          obtain ⟨listing, hlisting, hle, -⟩ :=
            @ih (query + 1) (beyond rank (some last) rows) (by omega)
          refine ⟨_, by rw [hlisting]; rfl, ?_, ?_⟩
          · rw [List.length_append]
            omega
          · apply iff_of_false
            · intro hlists
              have htoo := hlists.perm.length_eq
              rw [List.length_append] at htoo
              omega
            · exact fun hall => hall.1 hsame
    · -- the first page holds every row
      have hall : (o.order query rows).take limit = o.order query rows := by
        apply List.take_of_length_le
        rw [(o.perm query rows).length_eq]
        exact Nat.not_lt.mp hlt
      have hmore : more rows (o.order query rows) = false := by
        rw [← hall, Bool.eq_false_iff]
        exact fun h => hlt (htells.only query rows h)
      rw [follow, hall, hmore, if_neg Bool.false_ne_true]
      refine ⟨_, rfl, Nat.le_of_eq (o.perm query rows).length_eq, ?_⟩
      exact iff_of_true (lists_order o query rows)
        (boundariesDiffer_of_le (by rw [length_ranks]; exact Nat.not_lt.mp hlt))

end PlatformSpec.Base.Keyset
