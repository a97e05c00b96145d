import Mathlib.Data.List.TakeWhile

/-!
# The thread of the newest message

Models `core/prompt/utils/extract_thread_messages.py`: one pass over the messages of a
conversation, newest first, that follows the parents of the newest one. A message of the time
before parents were kept has the nil UUID for its parent and goes on from the message before it.
-/

namespace PlatformSpec.Prompt

/-- `UUID_NIL`. -/
def uuidNil : String := "00000000-0000-0000-0000-000000000000"

/-- `Message`: a row of `messages`, as the extraction reads it. -/
structure Message where
  id : String
  parentMessageId : Option String
  deriving DecidableEq

/-- Neither `None` nor the empty string. -/
def isGiven (id : Option String) : Bool := id.any (· ≠ "")

/-- The loop of `extract_thread_messages`, with the id of the message it looks for. -/
def extractFrom : Option String → List Message → List Message
  | _, [] => []
  | nextMessage, message :: messages =>
    if !isGiven message.parentMessageId then [message]
    else if !isGiven nextMessage then
      message :: extractFrom message.parentMessageId messages
    else if nextMessage = some message.id ∨ nextMessage = some uuidNil then
      message :: extractFrom message.parentMessageId messages
    else extractFrom nextMessage messages

/-- `extract_thread_messages`. -/
def extractThreadMessages (messages : List Message) : List Message := extractFrom none messages

/-! ## Parents -/

/-- The message names its parent by id. -/
def Message.namesParent (message : Message) : Prop :=
  isGiven message.parentMessageId = true ∧ message.parentMessageId ≠ some uuidNil

instance (message : Message) : Decidable message.namesParent := instDecidableAnd

/-- The message is not the one with the given id. -/
def isOther (id : Option String) (m : Message) : Bool := decide (some m.id ≠ id)

/-- The older messages from the parent of a message on. -/
def parentOn (message : Message) (older : List Message) : List Message :=
  if message.namesParent then older.dropWhile (isOther message.parentMessageId)
  else if isGiven message.parentMessageId then older
  else []

/-- The older messages between a message and its parent. -/
def passed (message : Message) (older : List Message) : List Message :=
  if message.namesParent then older.takeWhile (isOther message.parentMessageId) else []

/-- The thread of the first of some messages: each message is followed by its parent, up to one
whose parent is not there. -/
inductive Thread : List Message → List Message → Prop
  | empty : Thread [] []
  | ends {message : Message} {older : List Message} (h : parentOn message older = []) :
      Thread (message :: older) [message]
  | goesOn {message parent : Message} {older rest thread : List Message}
      (h : parentOn message older = parent :: rest) (hrest : Thread (parent :: rest) thread) :
      Thread (message :: older) (message :: thread)

/-- From one message to its parent and so on: the messages from there on. -/
inductive Reaches (messages : List Message) : List Message → Prop
  | start : Reaches messages messages
  | parent {message : Message} {older : List Message} (h : Reaches messages (message :: older)) :
      Reaches messages (parentOn message older)

/-- Every message that stands between one of the thread and its parent has a parent itself. -/
def NoRootPassed (messages : List Message) : Prop :=
  ∀ message older, Reaches messages (message :: older) →
    ∀ m ∈ passed message older, isGiven m.parentMessageId = true

/-! ## The pass over the messages -/

variable {message : Message} {messages older thread : List Message} {next : String}

private theorem extractFrom_given (h : isGiven message.parentMessageId = true) :
    extractFrom none (message :: older) =
      message :: extractFrom message.parentMessageId older := by
  rw [extractFrom, h]
  rfl

private theorem extractFrom_found (hnext : isGiven (some next) = true)
    (h : next = message.id ∨ next = uuidNil) :
    extractFrom (some next) (message :: older) = extractFrom none (message :: older) := by
  rw [extractFrom, extractFrom, hnext]
  apply if_congr Iff.rfl rfl
  rw [if_neg (by decide), if_pos (h.imp (congrArg some) (congrArg some))]
  rfl

private theorem extractFrom_legacy (older : List Message) :
    extractFrom (some uuidNil) older = extractFrom none older := by
  cases older with
  | nil => rfl
  | cons m older => exact extractFrom_found (by decide) (.inr rfl)

private theorem extractFrom_search (hnext : isGiven (some next) = true) (hnil : next ≠ uuidNil)
    (h : ∀ m ∈ older.takeWhile (isOther (some next)),
      isGiven m.parentMessageId = true) :
    extractFrom (some next) older =
      extractFrom none (older.dropWhile (isOther (some next))) := by
  induction older with
  | nil => rfl
  | cons m older ih =>
    by_cases hm : next = m.id
    · rw [List.dropWhile_cons_of_neg (by simp [isOther, hm])]
      exact extractFrom_found hnext (.inl hm)
    · have hpass : isOther (some next) m = true := by simp [isOther, Ne.symm hm]
      rw [List.takeWhile_cons_of_pos hpass, List.forall_mem_cons] at h
      rw [List.dropWhile_cons_of_pos hpass, extractFrom, h.1, hnext,
        if_neg (by decide), if_neg (by decide), if_neg (by simp [hm, hnil])]
      exact ih h.2

private theorem extractFrom_root (hnext : isGiven (some next) = true) (hnil : next ≠ uuidNil)
    (h : ¬ ∀ m ∈ older.takeWhile (isOther (some next)),
      isGiven m.parentMessageId = true) :
    ∃ m, m.id ≠ next ∧ extractFrom (some next) older = [m] := by
  induction older with
  | nil => exact absurd (List.forall_mem_nil _) h
  | cons m older ih =>
    by_cases hm : next = m.id
    · rw [List.takeWhile_cons_of_neg (by simp [isOther, hm])] at h
      exact absurd (List.forall_mem_nil _) h
    · have hpass : isOther (some next) m = true := by simp [isOther, Ne.symm hm]
      rw [List.takeWhile_cons_of_pos hpass, List.forall_mem_cons] at h
      rw [extractFrom]
      cases hgiven : isGiven m.parentMessageId with
      | false => exact ⟨m, Ne.symm hm, rfl⟩
      | true =>
        rw [hnext, if_neg (by decide), if_neg (by decide), if_neg (by simp [hm, hnil])]
        exact ih fun hall => h ⟨hgiven, hall⟩

theorem id_of_dropWhile {parent : Message} {rest : List Message}
    (h : older.dropWhile (isOther (some next)) = parent :: rest) : parent.id = next := by
  have hhead := List.head?_dropWhile_not (isOther (some next)) older
  rw [h] at hhead
  simpa [isOther] using hhead

theorem reaches_nil (h : Reaches [] messages) : messages = [] := by
  induction h with
  | start => rfl
  | parent _ ih => cases ih

theorem length_parentOn_le (message : Message) (older : List Message) :
    (parentOn message older).length ≤ older.length := by
  rw [parentOn]
  split
  · exact List.length_dropWhile_le _ _
  · split
    · exact Nat.le_refl _
    · exact Nat.zero_le _

theorem Reaches.of_parent (h : Reaches (parentOn message older) messages) :
    Reaches (message :: older) messages := by
  induction h with
  | start => exact .parent .start
  | parent _ ih => exact .parent ih

theorem noRootPassed_cons : NoRootPassed (message :: older) ↔
    (∀ m ∈ passed message older, isGiven m.parentMessageId = true) ∧
      NoRootPassed (parentOn message older) := by
  constructor
  · intro h
    exact ⟨h message older .start, fun m rest hreach => h m rest hreach.of_parent⟩
  · rintro ⟨hfirst, hrest⟩ m rest hreach
    generalize hstart : m :: rest = reached at hreach
    suffices reached = message :: older ∨ Reaches (parentOn message older) reached by
      rcases this with hsame | hlater
      · rw [← hstart] at hsame
        cases hsame
        exact hfirst
      · exact hrest m rest (hstart ▸ hlater)
    clear hstart
    induction hreach with
    | start => exact .inl rfl
    | parent _ ih =>
      rcases ih with hsame | hlater
      · cases hsame
        exact .inr .start
      · exact .inr (.parent hlater)

private theorem thread_head (h : Thread (message :: older) thread) :
    ∃ rest, thread = message :: rest := by
  cases h with
  | ends => exact ⟨[], rfl⟩
  | goesOn => exact ⟨_, rfl⟩

theorem thread_cons :
    Thread (message :: older) (message :: thread) ↔ Thread (parentOn message older) thread := by
  constructor
  · intro h
    cases h with
    | ends h =>
      rw [h]
      exact .empty
    | goesOn h hrest =>
      rw [h]
      exact hrest
  · intro h
    cases hparent : parentOn message older with
    | nil =>
      rw [hparent] at h
      cases h
      exact .ends hparent
    | cons parent rest =>
      rw [hparent] at h
      exact .goesOn hparent h

theorem thread_nil_iff : Thread [] (extractFrom none []) ↔ NoRootPassed [] := by
  refine iff_of_true .empty fun message older hreach => ?_
  cases reaches_nil hreach

theorem thread_named_iff {message : Message} {older : List Message}
    (hnames : message.namesParent)
    (ih : Thread (parentOn message older) (extractFrom none (parentOn message older)) ↔
      NoRootPassed (parentOn message older)) :
    Thread (message :: older) (extractFrom none (message :: older)) ↔
      NoRootPassed (message :: older) := by
  obtain ⟨hgiven, hnil⟩ := hnames
  obtain ⟨next, hnext⟩ : ∃ next, message.parentMessageId = some next := by
    cases hparent : message.parentMessageId with
    | none => rw [hparent] at hgiven; cases hgiven
    | some next => exact ⟨next, rfl⟩
  have hon : parentOn message older = older.dropWhile (isOther (some next)) := by
    rw [parentOn, if_pos ⟨hgiven, hnil⟩, hnext]
  rw [noRootPassed_cons, extractFrom_given hgiven, thread_cons, passed, if_pos ⟨hgiven, hnil⟩,
    hnext]
  rw [hnext] at hgiven hnil
  have hne : next ≠ uuidNil := fun h => hnil (congrArg some h)
  by_cases hall : ∀ m ∈ older.takeWhile (isOther (some next)), isGiven m.parentMessageId = true
  · rw [extractFrom_search hgiven hne hall, ← hon, ih]
    exact (and_iff_right hall).symm
  · obtain ⟨m, hm, hroot⟩ := extractFrom_root hgiven hne hall
    refine iff_of_false (fun hthread => ?_) fun h => hall h.1
    rw [hroot, hon] at hthread
    cases hdrop : older.dropWhile (isOther (some next)) with
    | nil =>
      rw [hdrop] at hthread
      cases hthread
    | cons parent rest =>
      rw [hdrop] at hthread
      obtain ⟨_, hhead⟩ := thread_head hthread
      cases hhead
      exact hm (id_of_dropWhile hdrop)

theorem thread_unnamed_iff {message : Message} {older : List Message}
    (hnames : ¬ message.namesParent)
    (ih : Thread (parentOn message older) (extractFrom none (parentOn message older)) ↔
      NoRootPassed (parentOn message older)) :
    Thread (message :: older) (extractFrom none (message :: older)) ↔
      NoRootPassed (message :: older) := by
  have hpassed : passed message older = [] := if_neg hnames
  rw [noRootPassed_cons, hpassed, and_iff_right (List.forall_mem_nil _)]
  cases hgiven : isGiven message.parentMessageId with
  | false =>
    have hon : parentOn message older = [] := by
      rw [parentOn, if_neg hnames, hgiven]
      rfl
    have hextract : extractFrom none (message :: older) = [message] := by
      rw [extractFrom, hgiven]
      rfl
    rw [hextract, hon]
    exact iff_of_true (.ends hon) (thread_nil_iff.mp .empty)
  | true =>
    have hparent : message.parentMessageId = some uuidNil := by
      by_contra hne
      exact hnames ⟨hgiven, hne⟩
    have hon : parentOn message older = older := by
      rw [parentOn, if_neg hnames, if_pos hgiven]
    rw [hon] at ih ⊢
    rw [extractFrom_given hgiven, thread_cons, hparent, extractFrom_legacy, hon]
    exact ih

theorem extractFrom_thread_iff (n : Nat) (hlength : messages.length ≤ n) :
    Thread messages (extractFrom none messages) ↔ NoRootPassed messages := by
  induction n generalizing messages with
  | zero =>
    rw [List.eq_nil_of_length_eq_zero (Nat.le_zero.mp hlength)]
    exact thread_nil_iff
  | succ n ih =>
    cases messages with
    | nil => exact thread_nil_iff
    | cons message older =>
      have hle := length_parentOn_le message older
      rw [List.length_cons] at hlength
      have hparent := @ih (parentOn message older) (by omega)
      by_cases hnames : message.namesParent
      · exact thread_named_iff hnames hparent
      · exact thread_unnamed_iff hnames hparent

/-- What is extracted is the thread of the newest message if and only if no message without a
parent stands between a message of the thread and its parent. -/
theorem extracts_thread_iff (messages : List Message) :
    Thread messages (extractThreadMessages messages) ↔ NoRootPassed messages :=
  extractFrom_thread_iff messages.length (Nat.le_refl _)

/-- A regenerated first message stands between a message and its parent. -/
theorem regenerated_ends_thread :
    ¬ Thread [⟨"c", some "a"⟩, ⟨"b", none⟩, ⟨"a", none⟩]
      (extractThreadMessages [⟨"c", some "a"⟩, ⟨"b", none⟩, ⟨"a", none⟩]) := by
  intro h
  have hextract : extractThreadMessages [⟨"c", some "a"⟩, ⟨"b", none⟩, ⟨"a", none⟩] =
      [⟨"c", some "a"⟩, ⟨"b", none⟩] := by decide
  rw [hextract, thread_cons] at h
  have hon : parentOn ⟨"c", some "a"⟩ [⟨"b", none⟩, ⟨"a", none⟩] = [⟨"a", none⟩] := by decide
  rw [hon] at h
  obtain ⟨_, hhead⟩ := thread_head h
  injection hhead with hfirst
  exact absurd hfirst (by decide)

end PlatformSpec.Prompt
