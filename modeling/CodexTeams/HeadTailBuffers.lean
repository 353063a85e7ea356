import CodexTeams.RustInt
import Mathlib.Data.List.DropRight

/-! A buffer that keeps the beginning and the end of what is pushed. Half of its capacity is for the
head; the tail drops its oldest bytes. -/
namespace HeadTailBuffers

open RustInt List

/-- The counters of the head and the tail stay within the capacity; the third one may saturate. -/
structure HeadTailBuffer where
  maxBytes : ℕ
  headBudget : ℕ
  tailBudget : ℕ
  head : List (List UInt8)
  tail : List (List UInt8)
  headBytes : ℕ
  tailBytes : ℕ
  omittedBytes : ℕ

namespace HeadTailBuffer

def new (maxBytes : ℕ) : HeadTailBuffer :=
  ⟨maxBytes, maxBytes / 2, maxBytes - maxBytes / 2, [], [], 0, 0, 0⟩

variable (b : HeadTailBuffer)

def retainedBytes : ℕ := b.headBytes + b.tailBytes

def toBytes : List UInt8 := b.head.flatten ++ b.tail.flatten

def snapshotChunks : List (List UInt8) := b.head ++ b.tail

def trimLoop : List (List UInt8) → ℕ → ℕ → ℕ → List (List UInt8) × ℕ × ℕ
  | [], _, tailBytes, omittedBytes => ([], tailBytes, omittedBytes)
  | front :: tail, excess, tailBytes, omittedBytes =>
    if excess = 0 then (front :: tail, tailBytes, omittedBytes)
    else if front.length ≤ excess then
      trimLoop tail (excess - front.length) (tailBytes - front.length)
        (saturatingAdd omittedBytes front.length)
    else (front.drop excess :: tail, tailBytes - excess, saturatingAdd omittedBytes excess)

def trimTailToBudget : HeadTailBuffer :=
  let (tail, tailBytes, omittedBytes) :=
    trimLoop b.tail (b.tailBytes - b.tailBudget) b.tailBytes b.omittedBytes
  { b with tail := tail, tailBytes := tailBytes, omittedBytes := omittedBytes }

variable (chunk : List UInt8)

def pushToTail (b : HeadTailBuffer) : HeadTailBuffer :=
  if b.tailBudget = 0 then { b with omittedBytes := saturatingAdd b.omittedBytes chunk.length }
  else if b.tailBudget ≤ chunk.length then
    let kept := chunk.drop (chunk.length - b.tailBudget)
    { b with
      omittedBytes := saturatingAdd (saturatingAdd b.omittedBytes b.tailBytes)
        (chunk.length - kept.length)
      tailBytes := kept.length
      tail := [kept] }
  else
    trimTailToBudget { b with tailBytes := b.tailBytes + chunk.length, tail := b.tail ++ [chunk] }

def pushChunk : HeadTailBuffer :=
  if b.maxBytes = 0 then { b with omittedBytes := saturatingAdd b.omittedBytes chunk.length }
  else if b.headBytes < b.headBudget then
    let remainingHead := b.headBudget - b.headBytes
    if chunk.length ≤ remainingHead then
      { b with headBytes := b.headBytes + chunk.length, head := b.head ++ [chunk] }
    else
      let headPart := chunk.take remainingHead
      pushToTail (chunk.drop remainingHead)
        (if headPart.isEmpty then b
        else { b with headBytes := b.headBytes + headPart.length, head := b.head ++ [headPart] })
  else pushToTail chunk b

end HeadTailBuffer

open HeadTailBuffer

section Pushing

variable {b : HeadTailBuffer}

theorem saturatingAdd_min (w n : ℕ) : saturatingAdd (min w usizeMax) n = min (w + n) usizeMax := by
  unfold saturatingAdd
  omega

theorem rtake_rtake_append (x y : List UInt8) (n : ℕ) :
    (x.rtake n ++ y).rtake n = (x ++ y).rtake n := by
  simp only [rtake, length_append, length_drop, drop_append, drop_drop]
  congr 2 <;> omega

theorem trimLoop_spec (l : List (List UInt8)) (hk : k ≤ l.flatten.length) (n w : ℕ) :
    (trimLoop l k n (min w usizeMax)).1.flatten = l.flatten.drop k ∧
      (trimLoop l k n (min w usizeMax)).2 = (n - k, min (w + k) usizeMax) := by
  induction l generalizing k n w with
  | nil =>
    obtain rfl : k = 0 := by simpa using hk
    simp [trimLoop]
  | cons front l ih =>
    rw [flatten_cons, length_append] at hk
    rw [trimLoop]
    split
    · next h => simp [h]
    · split
      · next hl =>
        rw [saturatingAdd_min]
        obtain ⟨hf, hs⟩ := ih (k := k - front.length) (by omega) (n - front.length)
          (w + front.length)
        rw [hf, hs, flatten_cons, drop_append, drop_eq_nil_of_le hl, Nat.sub_sub, Nat.add_assoc,
          Nat.add_sub_cancel' hl]
        exact ⟨rfl, rfl⟩
      · next hl =>
        rw [saturatingAdd_min, flatten_cons, flatten_cons, drop_append_of_le_length (by omega)]
        exact ⟨rfl, rfl⟩

/-- The tail takes a chunk: it keeps the last bytes of what it held and of the chunk. -/
theorem pushToTail_spec (hb : b.tailBytes = b.tail.flatten.length)
    (ht : b.tailBytes ≤ b.tailBudget) (ho : b.omittedBytes = min w usizeMax) (c : List UInt8) :
    let r := pushToTail c b
    r.tail.flatten = (b.tail.flatten ++ c).rtake b.tailBudget ∧
      r.tailBytes = r.tail.flatten.length ∧
      r.omittedBytes = min (w + (b.tailBytes + c.length - r.tailBytes)) usizeMax ∧
      r = { b with tail := r.tail, tailBytes := r.tailBytes, omittedBytes := r.omittedBytes } := by
  intro r
  simp only [r, pushToTail]
  split
  · next h0 =>
    have hn : b.tail.flatten = [] := length_eq_zero_iff.mp (by omega)
    rw [ho, saturatingAdd_min, h0, hn, rtake_zero, hb, hn, length_nil, Nat.zero_add]
    exact ⟨rfl, rfl, rfl, rfl⟩
  · split
    · next hc =>
      have he : (b.tail.flatten ++ c).rtake b.tailBudget = c.drop (c.length - b.tailBudget) := by
        rw [rtake, length_append, Nat.add_sub_assoc hc, drop_append, drop_eq_nil_of_le (by omega),
          nil_append, Nat.add_sub_cancel_left]
      rw [flatten_singleton, ho, saturatingAdd_min, saturatingAdd_min, he, length_drop,
        show w + b.tailBytes + (c.length - (c.length - (c.length - b.tailBudget))) =
          w + (b.tailBytes + c.length - (c.length - (c.length - b.tailBudget))) by omega]
      exact ⟨rfl, rfl, rfl, rfl⟩
    · next hc =>
      have hl : (b.tail ++ [c]).flatten = b.tail.flatten ++ c := by simp
      have hk : b.tailBytes + c.length - b.tailBudget ≤ (b.tail ++ [c]).flatten.length := by
        rw [hl, length_append]
        omega
      obtain ⟨hf, hs⟩ := trimLoop_spec _ hk (b.tailBytes + c.length) w
      simp only [trimTailToBudget, ho, hf, hs, hl, rtake, length_append, length_drop, ← hb]
      refine ⟨trivial, trivial, ?_, trivial⟩
      congr 1
      omega

/-- What a buffer holds after some bytes. -/
structure Holds (m : ℕ) (t : List UInt8) (b : HeadTailBuffer) : Prop where
  budgets : b.maxBytes = m ∧ b.headBudget = m / 2 ∧ b.tailBudget = m - m / 2
  head : b.head.flatten = t.take b.headBudget
  headBytes : b.headBytes = b.head.flatten.length
  tail : b.tail.flatten = (t.drop b.headBudget).rtake b.tailBudget
  tailBytes : b.tailBytes = b.tail.flatten.length
  omitted : b.omittedBytes = min (t.length - (b.headBytes + b.tailBytes)) usizeMax

theorem Holds.headBytes_eq (h : Holds m t b) : b.headBytes = min b.headBudget t.length := by
  rw [h.headBytes, h.head, length_take]

theorem Holds.tailBytes_eq (h : Holds m t b) :
    b.tailBytes = min b.tailBudget (t.length - b.headBudget) := by
  rw [h.tailBytes, h.tail, rtake, length_drop, length_drop]
  omega

theorem holds_new (m : ℕ) : Holds m [] (new m) :=
  ⟨⟨rfl, rfl, rfl⟩, by simp [new], rfl, by simp [new, rtake], rfl, by simp [new]⟩

section

variable (h : Holds m t b)

include h

theorem Holds.fill (hc : t.length + c.length ≤ b.headBudget) : Holds m (t ++ c)
      { b with headBytes := b.headBytes + c.length, head := b.head ++ [c] } := by
  obtain ⟨hb, hf, hl, htl, htb, ho⟩ := h
  rw [take_of_length_le (by omega)] at hf
  rw [drop_eq_nil_of_le (by omega)] at htl
  have hlc : (t ++ c).length ≤ b.headBudget := by rwa [length_append]
  have hfc : (b.head ++ [c]).flatten = t ++ c := by simp [hf]
  refine ⟨hb, hfc.trans (take_of_length_le hlc).symm, ?_, ?_, htb, ?_⟩
  · rw [hfc, length_append, hl, hf]
  · rw [htl, drop_eq_nil_of_le hlc]
  · rw [length_append]
    simp only
    omega

theorem Holds.pushToTail (hc : b.headBudget ≤ t.length) :
    Holds m (t ++ c) (HeadTailBuffer.pushToTail c b) := by
  have ht := h.tailBytes_eq
  have hh := h.headBytes_eq
  obtain ⟨hb, hf, hl, htl, htb, ho⟩ := h
  obtain ⟨hr, hrb, hro, he⟩ := pushToTail_spec htb (by omega) ho c
  rw [he]
  refine ⟨hb, ?_, hl, ?_, hrb, ?_⟩
  · rw [hf, take_append_of_le_length hc]
  · rw [hr, htl, rtake_rtake_append, drop_append_of_le_length hc]
  · have hrl : (HeadTailBuffer.pushToTail c b).tailBytes ≤ b.tailBytes + c.length := by
      rw [hrb, hr, rtake, length_drop, length_append]
      omega
    rw [length_append]
    simp only
    omega

theorem Holds.pushChunk (c : List UInt8) : Holds m (t ++ c) (b.pushChunk c) := by
  have hh := h.headBytes_eq
  have hb := h.budgets
  rw [HeadTailBuffer.pushChunk]
  split
  · have ht := h.pushToTail (c := c) (by omega)
    rwa [HeadTailBuffer.pushToTail, if_pos (by omega)] at ht
  · split
    · simp only
      split
      · next hc => exact h.fill (by omega)
      · next hc =>
        have hl : (c.take (b.headBudget - b.headBytes)).length = b.headBudget - b.headBytes := by
          rw [length_take]
          omega
        have hf := h.fill (c := c.take (b.headBudget - b.headBytes)) (by omega)
        have ht := hf.pushToTail (c := c.drop (b.headBudget - b.headBytes)) (by
          simp only [length_append]
          omega)
        rw [append_assoc, take_append_drop] at ht
        rwa [if_neg]
        rw [isEmpty_iff_length_eq_zero]
        omega
    · exact h.pushToTail (by omega)

theorem holds_pushes (cs : List (List UInt8)) :
    Holds m (t ++ cs.flatten) (cs.foldl HeadTailBuffer.pushChunk b) := by
  induction cs generalizing t b with
  | nil => simpa using h
  | cons c cs ih =>
    rw [flatten_cons, ← append_assoc]
    exact ih (h.pushChunk c)

end

/-- Whatever the chunks, the first bytes and the last ones stay, and the others are counted. -/
theorem head_and_tail_kept (maxBytes : ℕ) (chunks : List (List UInt8)) :
    let b := chunks.foldl pushChunk (new maxBytes)
    let stream := chunks.flatten
    let headBudget := maxBytes / 2
    b.toBytes = stream.take headBudget ++ (stream.drop headBudget).rtake (maxBytes - headBudget) ∧
      b.snapshotChunks.flatten = b.toBytes ∧ b.retainedBytes = b.toBytes.length ∧
      b.omittedBytes = min (stream.length - b.retainedBytes) usizeMax ∧
      b.retainedBytes ≤ maxBytes := by
  intro b stream headBudget
  have h : Holds maxBytes stream b := holds_pushes (holds_new maxBytes) chunks
  have hh := h.headBytes_eq
  have ht := h.tailBytes_eq
  obtain ⟨⟨_, hb, htb⟩, hf, hl, htl, htl', ho⟩ := h
  have hr : b.toBytes.length = b.retainedBytes := by
    rw [toBytes, length_append, retainedBytes, hl, htl']
  refine ⟨?_, flatten_append, hr.symm, ho, ?_⟩
  · rw [toBytes, hf, htl, hb, htb]
  · rw [retainedBytes, hh, ht, hb, htb]
    omega

theorem omitted_of_no_capacity (chunks : List (List UInt8))
    (hn : usizeMax < chunks.flatten.length) :
    let b := chunks.foldl pushChunk (new 0)
    b.omittedBytes = usizeMax ∧ b.omittedBytes ≠ chunks.flatten.length - b.retainedBytes := by
  intro b
  have h : Holds 0 chunks.flatten b := holds_pushes (holds_new 0) chunks
  have hh := h.headBytes_eq
  have ht := h.tailBytes_eq
  obtain ⟨hb, _, _, _, _, ho⟩ := h
  rw [retainedBytes]
  omega

/-- The counter stops at the largest `usize`. -/
theorem omitted_bytes_saturate :
    let chunks := replicate 3 (replicate 9223372036854775807 (0 : UInt8))
    let b := chunks.foldl pushChunk (new 0)
    b.omittedBytes = usizeMax ∧ b.omittedBytes ≠ chunks.flatten.length - b.retainedBytes := by
  refine omitted_of_no_capacity _ ?_
  rw [flatten_replicate_replicate, length_replicate]
  decide

end Pushing

end HeadTailBuffers
