import Sop2.Lab06.Channel.Definitions

/-!
# Lab06 — Channel — exactly-once delivery

Any number of processes call `channel_produce` and `channel_consume` on one channel that nobody
marks depleted.  `channel_exactly_once`: the messages consumed so far, followed by the one the
channel holds, are the messages produced so far, in order.

The invariant is the law itself with the status: without a depletion the channel is empty or
occupied, so a section of `channel_produce` never overwrites an unread message and a section of
`channel_consume` returns exactly the one that is there.
-/

namespace Sop2.Channel
open Support Support.Monitor

variable {P : Type*}

/-- The labels of a trace. -/
def labels (tr : List (Move (State P) (Label P))) : List (Label P) := tr.map Move.label

@[simp] theorem labels_snoc (tr : List (Move (State P) (Label P))) (m : Move (State P) (Label P)) :
    labels (tr ++ [m]) = labels tr ++ [m.label] := by
  simp [labels]

@[simp] theorem produced_append (ls ms : List (Label P)) :
    produced (ls ++ ms) = produced ls ++ produced ms := by
  simp [produced]

@[simp] theorem consumed_append (ls ms : List (Label P)) :
    consumed (ls ++ ms) = consumed ls ++ consumed ms := by
  simp [consumed]

variable [DecidableEq P]

/-- **One section, accounted for.**  On a channel that is empty or occupied, a step other than a
depletion consumes what was buffered or produces what is buffered afterwards. -/
theorem step_accounts {s t : State P} {l : Label P} (h : Step monitor s l t)
    (hl : l ≠ .env .deplete) (hs : s.shared.status = .empty ∨ s.shared.status = .occupied) :
    (t.shared.status = .empty ∨ t.shared.status = .occupied) ∧
      consumed [l] ++ buffered t.shared = buffered s.shared ++ produced [l] := by
  cases h with
  | call | wait | spurious => exact ⟨hs, by simp [consumed, produced]⟩
  | ret p c sh cvs r W hp hb hW =>
      cases c with
      | produce d n =>
          obtain ⟨hne, ht, -, rfl, htake⟩ := channelProduce_leave hb
          refine ⟨.inr ht, ?_⟩
          simp [consumed, produced, buffered, hne, ht, htake]
      | consume =>
          rcases channelConsume_leave hb with ⟨hd, -⟩ | ⟨hne, -, ht, -, rfl⟩
          · rcases hs with hs | hs <;> rw [hs] at hd <;> cases hd
          · refine ⟨.inl ht, ?_⟩
            have ho : s.shared.status = .occupied := hs.resolve_left hne
            simp [consumed, produced, buffered, ho, ht]
  | env e => cases e; exact absurd rfl hl

/-- **Exactly-once delivery.**  On a channel that starts empty and is never marked depleted, the
messages returned by `channel_consume`, followed by the one the channel still holds, are the
messages of the completed `channel_produce` calls in the order of those calls. -/
theorem channel_exactly_once {ch : ChannelT} (hch : ch.status = .empty)
    {tr : List (Move (State P) (Label P))} {s : State P} (r : Run (Step monitor) (start ch) tr s)
    (hd : ∀ m ∈ tr, m.label ≠ .env .deplete) :
    consumed (labels tr) ++ buffered s.shared = produced (labels tr) := by
  suffices (s.shared.status = .empty ∨ s.shared.status = .occupied) ∧
      consumed (labels tr) ++ buffered s.shared = produced (labels tr) from this.2
  induction r with
  | refl => exact ⟨.inl hch, by simp [labels, consumed, produced, buffered, start, hch]⟩
  | @snoc t u tr l r h ih =>
      obtain ⟨ht, law⟩ := ih fun m hm => hd m (List.mem_append_left _ hm)
      obtain ⟨hu, account⟩ := step_accounts h (hd ⟨t, l, u⟩ (by simp)) ht
      refine ⟨hu, ?_⟩
      calc consumed (labels (tr ++ [⟨t, l, u⟩])) ++ buffered u.shared
          = consumed (labels tr) ++ (consumed [l] ++ buffered u.shared) := by simp
        _ = consumed (labels tr) ++ buffered t.shared ++ produced [l] := by
            rw [account, List.append_assoc]
        _ = produced (labels (tr ++ [⟨t, l, u⟩])) := by rw [law]; simp

theorem channel_exactly_once_two_calls :
    ∃ (tr : List (Move (State Bool) (Label Bool))) (s : State Bool),
      consumed (labels tr) = [[7, 9]] ∧
        consumed (labels tr) ++ buffered s.shared = produced (labels tr) := by
  obtain ⟨tr₁, r₁, l₁⟩ := run_alone (M := monitor) (s := start ⟨.empty, zeros, 0⟩)
    (fun _ => rfl) true (c := .produce [7, 9] 2)
    (x := ⟨.occupied, memcpy zeros [7, 9] (by decide), 2⟩) rfl
  obtain ⟨tr₂, r₂, l₂⟩ := run_alone (M := monitor)
    (s := ⟨⟨.occupied, memcpy zeros [7, 9] (by decide), 2⟩, fun _ => .outside⟩)
    (fun _ => rfl) false (c := .consume) rfl
  refine ⟨tr₁ ++ tr₂, _, ?_, channel_exactly_once rfl (r₁.trans r₂) fun m hm => ?_⟩
  · rw [labels, List.map_append, l₁, l₂]; rfl
  · have hl : m.label ∈ labels (tr₁ ++ tr₂) := List.mem_map_of_mem hm
    rw [labels, List.map_append, l₁, l₂] at hl
    simp only [List.cons_append, List.nil_append, List.mem_cons, List.not_mem_nil, or_false] at hl
    rcases hl with hl | hl | hl | hl <;> rw [hl] <;> simp

end Sop2.Channel
