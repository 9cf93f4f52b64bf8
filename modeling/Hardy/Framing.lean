import Mathlib.Data.List.Basic

/-!
# Framed streams

A decoder takes one message off the front of a buffer, or leaves the buffer as it is
until there is more of it.  Where it reads back what an encoder writes and waits on
every part of that (`Framing`), the messages of a stream come out one by one however
the stream is cut into chunks.
-/

namespace Hardy

/-- A message with the buffer behind it, or no message and the buffer. -/
abbrev FrameDecoder (ε μ τ : Type) := List τ → Except ε (Option μ × List τ)

namespace FrameDecoder

variable {ε μ τ : Type}

def drain (decode : FrameDecoder ε μ τ) : Nat → List τ → Except ε (List μ × List τ)
  | 0, buffer => .ok ([], buffer)
  | n + 1, buffer =>
    match decode buffer with
    | .error e => .error e
    | .ok (none, buffer) => .ok ([], buffer)
    | .ok (some m, buffer) => (drain decode n buffer).map fun r => (m :: r.1, r.2)

/-- A chunk arrives: the messages that were complete before, with those that are now. -/
def feed (decode : FrameDecoder ε μ τ) (s : List μ × List τ) (chunk : List τ) :
    Except ε (List μ × List τ) :=
  (drain decode ((s.2 ++ chunk).length + 1) (s.2 ++ chunk)).map fun r => (s.1 ++ r.1, r.2)

def feedAll (decode : FrameDecoder ε μ τ) (chunks : List (List τ)) :
    Except ε (List μ × List τ) :=
  chunks.foldlM (feed decode) ([], [])

/-- The messages of `P` are read back from their encodings, and nothing is made of
less than that. -/
structure Framing (encode : μ → List τ) (decode : FrameDecoder ε μ τ) (P : μ → Prop) : Prop where
  nonempty : ∀ m, P m → encode m ≠ []
  whole : ∀ m, P m → ∀ r, decode (encode m ++ r) = .ok (some m, r)
  cut : ∀ m, P m → ∀ p q, encode m = p ++ q → q ≠ [] → decode p = .ok (none, p)
  empty : decode [] = .ok (none, [])

namespace Framing

variable {encode : μ → List τ} {decode : FrameDecoder ε μ τ} {P : μ → Prop}

variable {ms : List μ}

theorem drain_eq (h : Framing encode decode P) (hms : ∀ m ∈ ms, P m)
    {p : List τ} (hp : decode p = .ok (none, p)) {n : Nat} (hn : ms.length < n) :
    drain decode n (ms.flatMap encode ++ p) = .ok (ms, p) := by
  induction ms generalizing n with
  | nil =>
    obtain ⟨n, rfl⟩ : ∃ k, n = k + 1 := ⟨n - 1, by rw [List.length_nil] at hn; omega⟩
    rw [List.flatMap_nil, List.nil_append, drain, hp]
  | cons m ms ih =>
    obtain ⟨n, rfl⟩ : ∃ k, n = k + 1 := ⟨n - 1, by rw [List.length_cons] at hn; omega⟩
    rw [List.flatMap_cons, List.append_assoc, drain, h.whole m (hms m List.mem_cons_self)]
    dsimp only
    rw [ih (fun m hm => hms m (List.mem_cons_of_mem _ hm))
      (by rw [List.length_cons] at hn; omega)]
    rfl

theorem length_le (h : Framing encode decode P) (hms : ∀ m ∈ ms, P m) :
    ms.length ≤ (ms.flatMap encode).length := by
  induction ms with
  | nil => exact Nat.le_refl _
  | cons m ms ih =>
    have hpos := List.length_pos_iff.mpr (h.nonempty m (hms m List.mem_cons_self))
    have hrest := ih fun m hm => hms m (List.mem_cons_of_mem _ hm)
    rw [List.flatMap_cons, List.length_append, List.length_cons]
    omega

theorem exists_split (h : Framing encode decode P) (hms : ∀ m ∈ ms, P m)
    {b r : List τ} (hb : b ++ r = ms.flatMap encode) :
    ∃ done rest p, ms = done ++ rest ∧ b = done.flatMap encode ++ p ∧
      p ++ r = rest.flatMap encode ∧ decode p = .ok (none, p) := by
  induction ms generalizing b with
  | nil =>
    obtain ⟨rfl, rfl⟩ := List.append_eq_nil_iff.mp hb
    exact ⟨[], [], [], rfl, rfl, rfl, h.empty⟩
  | cons m ms ih =>
    rw [List.flatMap_cons] at hb
    rcases List.append_eq_append_iff.mp hb with ⟨q, hq, hr⟩ | ⟨b', hb', hr⟩
    · -- the front ends in the first message, or with it
      rcases eq_or_ne q [] with rfl | hne
      · rw [List.append_nil] at hq
        refine ⟨[m], ms, [], rfl, ?_, ?_, h.empty⟩
        · rw [List.flatMap_singleton, List.append_nil, hq]
        · exact hr
      · refine ⟨[], m :: ms, b, rfl, rfl, ?_, ?_⟩
        · rw [List.flatMap_cons, hb]
        · exact h.cut m (hms m List.mem_cons_self) b q hq hne
    · obtain ⟨done, rest, p, rfl, rfl, hp, hcut⟩ :=
        ih (fun m hm => hms m (List.mem_cons_of_mem _ hm)) hr.symm
      refine ⟨m :: done, rest, p, rfl, ?_, hp, hcut⟩
      rw [hb', List.flatMap_cons, List.append_assoc]

theorem feed_eq (h : Framing encode decode P) (hms : ∀ m ∈ ms, P m)
    (old : List μ) {buffer chunk r : List τ} (hb : buffer ++ chunk ++ r = ms.flatMap encode) :
    ∃ done rest p, ms = done ++ rest ∧ p ++ r = rest.flatMap encode ∧
      decode p = .ok (none, p) ∧ feed decode (old, buffer) chunk = .ok (old ++ done, p) := by
  obtain ⟨done, rest, p, rfl, hsplit, hp, hcut⟩ := h.exists_split hms hb
  have hdone : ∀ m ∈ done, P m := fun m hm => hms m (List.mem_append_left _ hm)
  refine ⟨done, rest, p, rfl, hp, hcut, ?_⟩
  have hlen := h.length_le hdone
  unfold feed
  rw [hsplit, h.drain_eq hdone hcut (by rw [List.length_append]; omega)]
  rfl

theorem feedAll_eq (h : Framing encode decode P) (hms : ∀ m ∈ ms, P m)
    {chunks : List (List τ)} (hchunks : chunks.flatten = ms.flatMap encode) :
    feedAll decode chunks = .ok (ms, []) := by
  have hall : ∀ (chunks : List (List τ)) (old ms : List μ) (buffer : List τ),
      (∀ m ∈ ms, P m) → decode buffer = .ok (none, buffer) →
      buffer ++ chunks.flatten = ms.flatMap encode →
      chunks.foldlM (feed decode) (old, buffer) = .ok (old ++ ms, []) := by
    intro chunks
    induction chunks with
    | nil =>
      intro old ms buffer hms hbuffer hb
      rw [List.flatten_nil, List.append_nil] at hb
      cases ms with
      | nil =>
        rw [hb, List.append_nil]
        rfl
      | cons m ms =>
        rw [hb, List.flatMap_cons, h.whole m (hms m List.mem_cons_self)] at hbuffer
        cases hbuffer
    | cons chunk chunks ih =>
      intro old ms buffer hms hbuffer hb
      rw [List.flatten_cons, ← List.append_assoc] at hb
      obtain ⟨done, rest, p, rfl, hp, hcut, hfeed⟩ := h.feed_eq hms old hb
      rw [List.foldlM_cons, hfeed]
      have hrest := ih (old ++ done) rest p
        (fun m hm => hms m (List.mem_append_right _ hm)) hcut hp
      rw [List.append_assoc] at hrest
      exact hrest
  exact hall chunks [] ms [] hms h.empty hchunks

end Framing

end FrameDecoder

end Hardy
