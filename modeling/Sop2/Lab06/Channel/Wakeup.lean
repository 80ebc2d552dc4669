import Sop2.Lab06.Channel.Definitions

/-!
# Lab06 — Channel — no lost wake-up

`channel_produce` and `channel_consume` signal one waiter, not all of them.  A woken process may
find that a newcomer took the mutex first, so what holds is not that the woken process proceeds
but that nobody sleeps alone (`no_lost_wakeup`): a consumer sleeps on `consumer_cv` while the
channel is occupied only if another consumer is awake inside `channel_consume`, a producer sleeps
on `producer_cv` while it is empty only if another producer is awake inside `channel_produce`,
and on a depleted channel no consumer sleeps at all.
-/

namespace Sop2.Channel
open Support Support.Monitor

/-- What the sleepers on a condition variable wait for. -/
def ready : Cv → ChannelT → Prop
  | .consumerCv, ch => ch.status = .occupied
  | .producerCv, ch => ch.status = .empty

/-- The condition variable a call waits on. -/
def waitsOn : Call → Cv → Prop
  | .consume, cv => cv = .consumerCv
  | .produce _ _, cv => cv = .producerCv

/-- Every section that makes a channel ready for one side signals that side, or belongs to the
other side and found it ready. -/
theorem monitor_covers : Covers monitor ready waitsOn where
  on {s c cv} h := by
    cases c with
    | produce => exact (channelProduce_wait h).2
    | consume => exact (channelConsume_wait h).2
  wait {s c cv} h := by
    cases c with
    | produce => rintro cv rfl hr; rw [ready, (channelProduce_wait h).1] at hr; cases hr
    | consume => rintro cv rfl hr; rw [ready, (channelConsume_wait h).1] at hr; cases hr
  leave {s c s' cvs r} h := by
    intro cv hr
    cases c with
    | produce =>
        obtain ⟨-, ht, rfl, -⟩ := channelProduce_leave h
        cases cv with
        | consumerCv => exact .inl (by simp)
        | producerCv => rw [ready, ht] at hr; cases hr
    | consume =>
        rcases channelConsume_leave h with ⟨hd, rfl, -, -⟩ | ⟨-, -, ht, rfl, -⟩
        · cases cv <;> rw [ready, hd] at hr <;> cases hr
        · cases cv with
          | consumerCv => rw [ready, ht] at hr; cases hr
          | producerCv => exact .inl (by simp)
  env s e cv hr := by
    cases e; cases cv <;> cases hr

/-- Only the end of `ops-double-processor` depletes a channel, and it broadcasts. -/
theorem monitor_silent : Silent monitor (fun ch => ch.status = .depleted) .consumerCv where
  wait {s c} h hd := by
    cases c with
    | produce => cases (channelProduce_wait h).2
    | consume => rw [(channelConsume_wait h).1] at hd; cases hd
  leave {s c s' cvs r} h hd := by
    cases c with
    | produce => rw [(channelProduce_leave h).2.1] at hd; cases hd
    | consume =>
        rcases channelConsume_leave h with ⟨hd', -⟩ | ⟨-, -, ht, -⟩
        · exact hd'
        · rw [ht] at hd; cases hd
  env s e _ := by cases e; exact .inl (by simp [monitor, deplete])

variable {P : Type*} [DecidableEq P]

/-- **No lost wake-up.**  In every state between two sections of any run of producers, consumers,
spurious wake-ups and depletions on one channel:
* while it is occupied, a consumer asleep on `consumer_cv` leaves another consumer awake inside
  `channel_consume`;
* while it is empty, a producer asleep on `producer_cv` leaves another producer awake inside
  `channel_produce`;
* while it is depleted, no consumer sleeps on `consumer_cv`. -/
theorem no_lost_wakeup {ch : ChannelT} {s : State P} (h : Reaches (Step monitor) (start ch) s) :
    (s.shared.status = .occupied → ∀ p, Asleep s.ctl .consumerCv p →
      ∃ q, q ≠ p ∧ s.ctl q = .awake .consume) ∧
    (s.shared.status = .empty → ∀ p, Asleep s.ctl .producerCv p →
      ∃ q d n, q ≠ p ∧ s.ctl q = .awake (.produce d n)) ∧
    (s.shared.status = .depleted → ∀ p, ¬ Asleep s.ctl .consumerCv p) := by
  have cov := monitor_covers.reaches (fun _ => rfl) h
  have ne : ∀ {cv p q c}, Asleep s.ctl cv p → s.ctl q = .awake c → q ≠ p := by
    rintro cv p q c ⟨d, hp⟩ hq rfl; rw [hp] at hq; cases hq
  refine ⟨fun hs p hp => ?_, fun hs p hp => ?_, monitor_silent.reaches (fun _ => rfl) h⟩
  · obtain ⟨q, c, hq, hc⟩ := cov.awake .consumerCv hs ⟨p, hp⟩
    cases c with
    | produce => cases hc
    | consume => exact ⟨q, ne hp hq, hq⟩
  · obtain ⟨q, c, hq, hc⟩ := cov.awake .producerCv hs ⟨p, hp⟩
    cases c with
    | produce d n => exact ⟨q, d, n, ne hp hq, hq⟩
    | consume => cases hc

/-- Two consumers sleep, a producer fills the channel and its signal wakes the first of them. -/
theorem no_lost_wakeup_second_sleeper : ∃ s : State (Fin 3),
    s.shared.status = .occupied ∧ Asleep s.ctl .consumerCv 1 ∧
      ∃ q, q ≠ 1 ∧ s.ctl q = .awake .consume := by
  have r : ∃ s : State (Fin 3), Reaches (Step monitor) (start ⟨.empty, zeros, 0⟩) s ∧
      s.shared.status = .occupied ∧ Asleep s.ctl .consumerCv 1 := by
    refine ⟨_, ⟨_, .snoc (.snoc (.snoc (.snoc (.snoc (.one (.call 0 .consume rfl))
      (.wait 0 .consume .consumerCv rfl rfl)) (.call 1 .consume rfl))
      (.wait 1 .consume .consumerCv rfl rfl)) (.call 2 (.produce [7] 1) rfl))
      (.ret 2 (.produce [7] 1) ⟨.occupied, memcpy zeros [7] (by decide), 1⟩ [.consumerCv]
        .produced (fun p => p = 0) rfl rfl ⟨fun p hp => ?_, fun cv hcv _ => ?_⟩)⟩, rfl,
      .consume, rfl⟩
    · exact ⟨.consumerCv, by simp, .consume, by rw [of_decide_eq_true hp]; rfl⟩
    · obtain rfl := List.mem_singleton.mp hcv
      exact ⟨0, ⟨.consume, rfl⟩, rfl⟩
  obtain ⟨s, hs, ho, ha⟩ := r
  exact ⟨s, ho, ha, (no_lost_wakeup hs).1 ho 1 ha⟩

end Sop2.Channel
