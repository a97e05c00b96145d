import PlatformSpec.Base.Window
import PlatformSpec.Rag.TextSplitter

/-!
# Splitting by tokens

Models `split_text_on_tokens` of `core/rag/splitter/text_splitter.py` and says for which sizes the
windows that it decodes cover the tokens with the overlap asked for.
-/

namespace PlatformSpec.Rag

open Base

variable {τ : Type}

/-- `Tokenizer`. -/
structure Tokenizer (τ : Type) where
  chunkOverlap : Int
  tokensPerChunk : Int
  decode : List τ → String
  encode : String → List τ

/-- The tokenizer that `TokenTextSplitter.split_text` sets up. -/
def TextSplitter.tokenizer (s : TextSplitter) (decode : List τ → String)
    (encode : String → List τ) : Tokenizer τ where
  chunkOverlap := s.chunkOverlap
  tokensPerChunk := s.chunkSize
  decode := decode
  encode := encode

namespace Tokenizer

variable (t : Tokenizer τ)

/-- `cur_idx` for a `start_idx`. -/
def curIdx (inputIds : List τ) (startIdx : Int) : Int :=
  min (startIdx + t.tokensPerChunk) inputIds.length

/-- The loop of `split_text_on_tokens`; `none` when it is still going after some rounds. -/
def splitLoop (inputIds : List τ) : Nat → Int → List τ → List String → Option (List String)
  | 0, _, _, _ => none
  | fuel + 1, startIdx, chunkIds, splits =>
    if startIdx < inputIds.length then
      let splits := splits ++ [t.decode chunkIds]
      let startIdx := startIdx + (t.tokensPerChunk - t.chunkOverlap)
      let chunkIds := slice inputIds startIdx (t.curIdx inputIds startIdx)
      splitLoop inputIds fuel startIdx chunkIds splits
    else some splits

/-- `split_text_on_tokens`. -/
def splitTextOnTokens (text : String) (fuel : Nat) : Option (List String) :=
  let inputIds := t.encode text
  t.splitLoop inputIds fuel 0 (slice inputIds 0 (t.curIdx inputIds 0)) []

/-- The slices that the loop decodes, by their bounds. -/
def windowsFrom (inputIds : List τ) : Nat → Int → Option (List (Int × Int))
  | 0, _ => none
  | fuel + 1, startIdx =>
    if startIdx < inputIds.length then
      (windowsFrom inputIds fuel (startIdx + (t.tokensPerChunk - t.chunkOverlap))).map
        ((startIdx, t.curIdx inputIds startIdx) :: ·)
    else some []

/-- The slices that `split_text_on_tokens` decodes. -/
def windows (text : String) (fuel : Nat) : Option (List (Int × Int)) :=
  t.windowsFrom (t.encode text) fuel 0

theorem splitLoop_eq (inputIds : List τ) (fuel : Nat) (startIdx : Int)
    (splits : List String) :
    t.splitLoop inputIds fuel startIdx (slice inputIds startIdx (t.curIdx inputIds startIdx))
        splits =
      (t.windowsFrom inputIds fuel startIdx).map fun ws =>
        splits ++ ws.map fun w => t.decode (slice inputIds w.1 w.2) := by
  induction fuel generalizing startIdx splits with
  | zero => rfl
  | succ fuel ih =>
    simp only [splitLoop, windowsFrom]
    split
    · rw [ih, Option.map_map]
      simp [Function.comp_def]
    · simp

theorem splitTextOnTokens_eq (text : String) (fuel : Nat) :
    t.splitTextOnTokens text fuel = (t.windows text fuel).map fun ws =>
      ws.map fun w => t.decode (slice (t.encode text) w.1 w.2) := by
  simp [splitTextOnTokens, windows, splitLoop_eq]

/-- The positions of the tokens in a window. -/
def positions (text : String) (w : Int × Int) : List Nat :=
  slice (List.range (t.encode text).length) w.1 w.2

/-- The chunks are windows of limited size that share what was asked for and leave no token
out. -/
structure Covers (text : String) (chunks : List String) (ws : List (Int × Int)) : Prop where
  decoded : chunks = ws.map fun w => t.decode (slice (t.encode text) w.1 w.2)
  size : ∀ w ∈ ws, ((slice (t.encode text) w.1 w.2).length : Int) ≤ t.tokensPerChunk
  overlap : ws.IsChain fun w w' =>
    ((t.positions text w ∩ t.positions text w').length : Int) = t.chunkOverlap
  cover : ∀ i < (t.encode text).length, ∃ w ∈ ws, i ∈ t.positions text w

/-- The splitting ends and its windows cover the text. -/
def Splits (text : String) : Prop :=
  ∃ fuel chunks ws, t.splitTextOnTokens text fuel = some chunks ∧
    t.windows text fuel = some ws ∧ t.Covers text chunks ws

/-- There are no tokens; or the windows advance, a negative overlap leaves no gap, and the last
window is not shorter than the overlap. -/
def Fits (text : String) : Prop :=
  let n := (t.encode text).length
  let step := t.tokensPerChunk - t.chunkOverlap
  n = 0 ∨ (0 < step ∧ (0 ≤ t.chunkOverlap ∨ n ≤ t.tokensPerChunk) ∧
    (n ≤ step ∨ t.chunkOverlap ≤ (n - 1) % step + 1))

section Advancing

variable {t} {text : String} {step k : Nat}

/-- The window that the loop decodes in a round. -/
private def nth (t : Tokenizer τ) (inputIds : List τ) (step k : Nat) : Int × Int :=
  ((k * step : Nat), t.curIdx inputIds (k * step : Nat))

private theorem windowsFrom_eq (hstep : (step : Int) = t.tokensPerChunk - t.chunkOverlap)
    (hpos : 0 < step) (inputIds : List τ) (fuel k : Nat) :
    t.windowsFrom inputIds fuel (k * step : Nat) =
      if Window.count inputIds.length step - k < fuel then
        some ((List.range' k (Window.count inputIds.length step - k)).map (nth t inputIds step))
      else none := by
  induction fuel generalizing k with
  | zero => simp [windowsFrom]
  | succ fuel ih =>
    have hnext : ((k * step : Nat) : Int) + (t.tokensPerChunk - t.chunkOverlap) =
        ((k + 1) * step : Nat) := by
      rw [← hstep, Nat.succ_mul]
      rfl
    rw [windowsFrom, hnext, ih]
    by_cases hk : k < Window.count inputIds.length step
    · have hlt := (Window.lt_count_iff hpos).mp hk
      have hcount : Window.count inputIds.length step - k =
          Window.count inputIds.length step - (k + 1) + 1 := by omega
      rw [if_pos (by omega), hcount, List.range'_succ]
      by_cases hfuel : Window.count inputIds.length step - (k + 1) < fuel
      · rw [if_pos hfuel, if_pos (by omega)]
        rfl
      · rw [if_neg hfuel, if_neg (by omega)]
        rfl
    · have hge := (Window.lt_count_iff hpos).not.mp hk
      have hcount : Window.count inputIds.length step - k = 0 := by omega
      rw [if_neg (by omega), hcount, if_pos (Nat.succ_pos _)]
      rfl

private theorem windows_eq_some_iff (hstep : (step : Int) = t.tokensPerChunk - t.chunkOverlap)
    (hpos : 0 < step) {ws : List (Int × Int)} :
    (∃ fuel, t.windows text fuel = some ws) ↔
      ws = (List.range (Window.count (t.encode text).length step)).map
        (nth t (t.encode text) step) := by
  have hrun := fun fuel => windowsFrom_eq hstep hpos (t.encode text) fuel 0
  simp only [Nat.zero_mul, Nat.sub_zero, Int.natCast_zero] at hrun
  rw [List.range_eq_range']
  constructor
  · rintro ⟨fuel, h⟩
    rw [windows, hrun] at h
    split at h
    · exact (Option.some.inj h).symm
    · cases h
  · rintro rfl
    exact ⟨_, (hrun _).trans (if_pos (Nat.lt_succ_self _))⟩

private theorem positions_nth (hsize : 0 ≤ t.tokensPerChunk)
    (hk : k * step < (t.encode text).length) :
    t.positions text (nth t (t.encode text) step k) =
      Window.window (t.encode text).length t.tokensPerChunk.toNat step k := by
  simp only [positions, nth, curIdx, slice_range, Window.window]
  rw [sliceIndex_of_nonneg (by omega), sliceIndex_of_nonneg (by omega)]
  congr 1 <;> omega

theorem length_eq_positions (w : Int × Int) :
    (slice (t.encode text) w.1 w.2).length = (t.positions text w).length := by
  rw [positions, length_slice, length_slice, List.length_range]

end Advancing

private theorem windowsFrom_stuck {t : Tokenizer τ} {inputIds : List τ} {startIdx : Int}
    (hstep : t.tokensPerChunk = t.chunkOverlap) (hstart : startIdx < inputIds.length)
    (fuel : Nat) : t.windowsFrom inputIds fuel startIdx = none := by
  induction fuel with
  | zero => rfl
  | succ fuel ih => rw [windowsFrom, if_pos hstart, hstep, Int.sub_self, Int.add_zero, ih]; rfl

section Exact

variable {t : Tokenizer τ} {text : String} {step : Nat}

/-- The windows in the order in which they are decoded. -/
private def all (t : Tokenizer τ) (text : String) (step : Nat) : List (Int × Int) :=
  (List.range (Window.count (t.encode text).length step)).map (nth t (t.encode text) step)

private theorem mem_all {w : Int × Int} : w ∈ all t text step ↔
    ∃ k < Window.count (t.encode text).length step, nth t (t.encode text) step k = w := by
  simp [all]

private theorem isChain_all {R : Int × Int → Int × Int → Prop} : (all t text step).IsChain R ↔
    ∀ k, k + 1 < Window.count (t.encode text).length step →
      R (nth t (t.encode text) step k) (nth t (t.encode text) step (k + 1)) := by
  simp [all, List.isChain_iff_getElem]

private theorem splits_iff (hstep : (step : Int) = t.tokensPerChunk - t.chunkOverlap)
    (hpos : 0 < step) : t.Splits text ↔ ∃ chunks, t.Covers text chunks (all t text step) := by
  constructor
  · rintro ⟨fuel, chunks, ws, -, hws, hcovers⟩
    rw [(windows_eq_some_iff hstep hpos).mp ⟨fuel, hws⟩] at hcovers
    exact ⟨chunks, hcovers⟩
  · rintro ⟨chunks, hcovers⟩
    obtain ⟨fuel, hws⟩ := (windows_eq_some_iff hstep hpos).mpr (rfl : all t text step = _)
    refine ⟨fuel, chunks, all t text step, ?_, hws, hcovers⟩
    rw [splitTextOnTokens_eq, hws, hcovers.decoded]
    rfl

private theorem overlap_all (hstep : (step : Int) = t.tokensPerChunk - t.chunkOverlap)
    (hpos : 0 < step) (hoverlap : 0 ≤ t.chunkOverlap) (hn : 0 < (t.encode text).length) :
    ((all t text step).IsChain fun w w' =>
        ((t.positions text w ∩ t.positions text w').length : Int) = t.chunkOverlap) ↔
      (t.encode text).length ≤ step ∨
        t.chunkOverlap.toNat ≤ ((t.encode text).length - 1) % step + 1 := by
  rw [isChain_all, ← Window.shared_iff hpos hn]
  refine forall_congr' fun k => forall_congr' fun hk => ?_
  have hk : (k + 1) * step < (t.encode text).length := (Window.lt_count_iff hpos).mp hk
  have hmul : (k + 1) * step = k * step + step := Nat.succ_mul k step
  have hrest : t.tokensPerChunk.toNat - step = t.chunkOverlap.toNat := by omega
  rw [positions_nth (by omega) (by omega), positions_nth (by omega) hk,
    Window.inter_window (by omega), hrest]
  omega

private theorem le_step_of_negative (hpos : 0 < step) (hoverlap : t.chunkOverlap < 0)
    (h : (all t text step).IsChain fun w w' =>
      ((t.positions text w ∩ t.positions text w').length : Int) = t.chunkOverlap) :
    (t.encode text).length ≤ step := by
  by_contra hlt
  have hone : 0 + 1 < Window.count (t.encode text).length step :=
    (Window.lt_count_iff hpos).mpr (by omega)
  have := isChain_all.mp h 0 hone
  omega

private theorem le_size_of_cover (hpos : 0 < step) (hn : 0 < (t.encode text).length)
    (hle : (t.encode text).length ≤ step) {chunks : List String}
    (h : t.Covers text chunks (all t text step)) :
    ((t.encode text).length : Int) ≤ t.tokensPerChunk := by
  obtain ⟨w, hw, hi⟩ := h.cover ((t.encode text).length - 1) (by omega)
  have hsize := h.size w hw
  obtain ⟨k, hk, rfl⟩ := mem_all.mp hw
  have hk := (Window.lt_count_iff hpos).mp hk
  rw [length_eq_positions] at hsize
  rw [positions_nth (by omega) hk, Window.mem_window] at hi
  have hzero : k = 0 := by
    by_contra hne
    have := Nat.le_mul_of_pos_left step (Nat.pos_of_ne_zero hne)
    omega
  rw [hzero] at hi
  omega

private theorem covers_all (hpos : 0 < step) (hsize : 0 ≤ t.tokensPerChunk)
    (hle : step ≤ t.tokensPerChunk ∨ ((t.encode text).length : Int) ≤ t.tokensPerChunk)
    (hoverlap : (all t text step).IsChain fun w w' =>
      ((t.positions text w ∩ t.positions text w').length : Int) = t.chunkOverlap) :
    ∃ chunks, t.Covers text chunks (all t text step) := by
  refine ⟨_, rfl, fun w hw => ?_, hoverlap, fun i hi => ?_⟩
  · obtain ⟨k, hk, rfl⟩ := mem_all.mp hw
    rw [length_eq_positions, positions_nth hsize ((Window.lt_count_iff hpos).mp hk)]
    have : (Window.window (t.encode text).length t.tokensPerChunk.toNat step k).length ≤
        t.tokensPerChunk.toNat := Window.length_window_le
    omega
  · rcases hle with hle | hle
    · have hle : step ≤ t.tokensPerChunk.toNat := by omega
      obtain ⟨k, hk, hmem⟩ := Window.exists_window hpos hle hi
      refine ⟨_, mem_all.mpr ⟨k, hk, rfl⟩, ?_⟩
      rwa [positions_nth hsize ((Window.lt_count_iff hpos).mp hk)]
    · have hzero : 0 * step < (t.encode text).length := by omega
      refine ⟨_, mem_all.mpr ⟨0, (Window.lt_count_iff hpos).mpr hzero, rfl⟩, ?_⟩
      rw [positions_nth hsize hzero, Window.mem_window]
      omega

end Exact

/-- Splitting by tokens ends with windows that cover the text, exactly when the sizes fit it. -/
theorem splits_iff_fits (s : TextSplitter) (decode : List τ → String) (encode : String → List τ)
    (text : String) :
    (s.tokenizer decode encode).Splits text ↔ (s.tokenizer decode encode).Fits text := by
  generalize ht : s.tokenizer decode encode = t
  have haccepted : t.chunkOverlap ≤ t.tokensPerChunk := by
    rw [← ht]
    exact s.overlap_le
  unfold Fits
  rcases Nat.eq_zero_or_pos (t.encode text).length with hn | hn
  · simp only [hn, true_or, iff_true]
    refine ⟨1, [], [], ?_, ?_, rfl, by simp, List.isChain_nil, by simp [hn]⟩
    · simp [splitTextOnTokens, splitLoop, hn]
    · simp [windows, windowsFrom, hn]
  · rcases Int.lt_or_eq_of_le haccepted with hlt | heq
    · obtain ⟨step, hstep⟩ := Int.eq_ofNat_of_zero_le (Int.sub_nonneg.mpr haccepted)
      have hpos : 0 < step := by omega
      have hrest : ((t.encode text).length - 1 : Int) % step =
          (((t.encode text).length - 1) % step : Nat) := by
        rw [Int.natCast_emod, Int.ofNat_sub hn]
        rfl
      rw [splits_iff hstep.symm hpos, hstep]
      simp only [hrest]
      constructor
      · rintro ⟨chunks, h⟩
        refine Or.inr ⟨by omega, ?_⟩
        rcases Int.lt_or_le t.chunkOverlap 0 with hneg | hnonneg
        · have hle := le_step_of_negative hpos hneg h.overlap
          exact ⟨Or.inr (le_size_of_cover hpos hn hle h), Or.inl (by omega)⟩
        · refine ⟨Or.inl hnonneg, ?_⟩
          have := (overlap_all hstep.symm hpos hnonneg hn).mp h.overlap
          omega
      · rintro (hzero | ⟨-, hsize, htail⟩)
        · omega
        · rcases Int.lt_or_le t.chunkOverlap 0 with hneg | hnonneg
          · -- the one window holds the whole text
            have hsize := hsize.resolve_left (by omega)
            refine covers_all hpos (by omega) (Or.inr hsize) (isChain_all.mpr fun k hk => ?_)
            have hk := (Window.lt_count_iff hpos).mp hk
            have : step ≤ (k + 1) * step := Nat.le_mul_of_pos_left step (Nat.succ_pos k)
            omega
          · refine covers_all hpos (by omega) (Or.inl (by omega))
              ((overlap_all hstep.symm hpos hnonneg hn).mpr ?_)
            omega
    · have hstart : (0 : Int) < (t.encode text).length := by omega
      have hstuck := windowsFrom_stuck heq.symm hstart
      constructor
      · rintro ⟨fuel, chunks, ws, -, hws, -⟩
        rw [windows, hstuck] at hws
        cases hws
      · rintro (hzero | ⟨hpos, -⟩) <;> omega

/-- The constructor takes an overlap as large as the chunks, and one token is then decoded for
ever. -/
theorem equal_overlap_never_ends : ∃ s, TextSplitter.init 2 2 = .ok s ∧
    ¬ (s.tokenizer String.ofList String.toList).Splits "a" := by
  refine ⟨⟨2, 2, characterLengths, false, Int.le_refl 2⟩, rfl, ?_⟩
  rintro ⟨fuel, chunks, ws, -, hws, -⟩
  rw [windows, windowsFrom_stuck rfl (by decide)] at hws
  cases hws

/-- Ten tokens in windows of five that share two leave a last window of one token. -/
example : ¬ (⟨2, 5, String.ofList, String.toList⟩ : Tokenizer Char).Fits "ABCDEFGHIJ" := by
  unfold Fits
  decide

end Tokenizer
end PlatformSpec.Rag
