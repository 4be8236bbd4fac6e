import Mathlib
import MarkupGrader.Selector.Memo

/-! A memo in use. Whatever was read and however often the memo was emptied, it holds the right
reading of each of its commands and of at most `limit` commands, so that reading through it is
reading. -/

namespace MarkupGrader.Selector.Memo

def commands (m : Memo) : List Text := m.entries.map Prod.fst

structure Sound (m : Memo) : Prop where
  right : ∀ e ∈ m.entries, e.2 = readPartial e.1
  distinct : m.commands.Nodup
  bounded : m.size ≤ limit

theorem sound_empty : empty.Sound where
  right := List.forall_mem_nil _
  distinct := List.nodup_nil
  bounded := Nat.zero_le limit

inductive Read (m : Memo) (command : Text) : Except Failure PartialChain × Memo → Prop
  | held {reading : Except Failure PartialChain} (mem : (command, reading) ∈ m.entries) :
      Read m command (reading, m)
  | added (new : command ∉ m.commands) (room : m.size < limit) :
      Read m command (readPartial command, ⟨(command, readPartial command) :: m.entries⟩)
  | emptied (new : command ∉ m.commands) (full : limit ≤ m.size) :
      Read m command (readPartial command, ⟨[(command, readPartial command)]⟩)

theorem read_read (m : Memo) (command : Text) : Read m command (m.read command) := by
  rw [read]
  cases found : m.entries.lookup command with
  | some reading =>
    obtain ⟨before, after, split, -⟩ := List.lookup_eq_some_iff.mp found
    refine .held ?_
    rw [split]
    exact List.mem_append_right _ List.mem_cons_self
  | none =>
    have new : command ∉ m.commands := by
      intro mem
      obtain ⟨e, held, rfl⟩ := List.mem_map.mp mem
      simpa using List.lookup_eq_none_iff.mp found e held
    by_cases full : limit ≤ m.size
    · simp only [if_pos full]
      exact .emptied new full
    · simp only [if_neg full]
      exact .added new (Nat.lt_of_not_le full)

namespace Sound

variable {m : Memo} (h : m.Sound) (command : Text)
include h

theorem read_fst : (m.read command).1 = readPartial command := by
  have read := read_read m command
  generalize m.read command = result at read ⊢
  cases read with
  | held mem => exact h.right _ mem
  | added new room => rfl
  | emptied new full => rfl

theorem read_snd : (m.read command).2.Sound := by
  have read := read_read m command
  generalize m.read command = result at read ⊢
  cases read with
  | held mem => exact h
  | added new room =>
    exact ⟨List.forall_mem_cons.mpr ⟨rfl, h.right⟩, List.nodup_cons.mpr ⟨new, h.distinct⟩, room⟩
  | emptied new full =>
    have room : 1 ≤ limit := by decide
    exact ⟨List.forall_mem_singleton.mpr rfl, List.nodup_singleton _, room⟩

theorem commands_read : (m.read command).2.commands =
    if command ∈ m.commands then m.commands
    else command :: if m.size = limit then [] else m.commands := by
  have read := read_read m command
  generalize m.read command = result at read ⊢
  cases read with
  | held mem =>
    have known : command ∈ m.commands := List.mem_map.mpr ⟨_, mem, rfl⟩
    rw [if_pos known]
  | added new room => rw [if_neg new, if_neg room.ne]; rfl
  | emptied new full => rw [if_neg new, if_pos (h.bounded.antisymm full)]; rfl

theorem size_read : (m.read command).2.size =
    if command ∈ m.commands then m.size else if m.size = limit then 1 else m.size + 1 := by
  have size (m : Memo) : m.size = m.commands.length := (List.length_map ..).symm
  rw [size, h.commands_read command]
  split
  · exact (size m).symm
  · split
    · rfl
    · rw [List.length_cons, size m]

end Sound

inductive Use
  | read (command : Text)
  | clear

def use (m : Memo) : Use → Memo
  | .read command => (m.read command).2
  | .clear => empty

def after (m : Memo) (us : List Use) : Memo := us.foldl use m

theorem Sound.use {m : Memo} (h : m.Sound) (u : Use) : (m.use u).Sound := by
  cases u with
  | read command => exact h.read_snd command
  | clear => exact sound_empty

theorem sound_after (us : List Use) : (empty.after us).Sound := by
  induction us using List.reverseRecOn with
  | nil => exact sound_empty
  | append_singleton us u ih =>
    rw [after, List.foldl_append]
    exact ih.use u

/-- At every moment of every run a command is read as without the memo, be it a chain or a failure,
and the memo never holds more than 256 commands, each once. A command that it holds leaves it as it
is; a new one is added, in an empty memo if it was full. -/
theorem bounded_memo (us : List Use) (command : Text) :
    let m := empty.after us
    (m.read command).1 = readPartial command ∧
    m.commands.Nodup ∧ m.size ≤ 256 ∧
    ((m.read command).2.size =
      if command ∈ m.commands then m.size else if m.size = 256 then 1 else m.size + 1) ∧
    (m.read command).2.commands =
      if command ∈ m.commands then m.commands
      else command :: if m.size = 256 then [] else m.commands := by
  intro m
  have sound : m.Sound := sound_after us
  exact ⟨sound.read_fst command, sound.distinct, sound.bounded, sound.size_read command,
    sound.commands_read command⟩

end MarkupGrader.Selector.Memo
