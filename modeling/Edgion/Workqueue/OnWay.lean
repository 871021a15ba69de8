import Edgion.Workqueue.Progress

/-!
# Workqueue — keys on their way

From the call that adds a key until the consumer hands it out, the key is
on its way: the call is open, or there is a token of the key, or the delay
loop has taken it up. Every step keeps it on its way, unless it hands the
key out; and in a fair run it is handed out.
-/

namespace Edgion.Workqueue

open Common Queue

variable {config : WorkqueueConfig} {q q' : Queue} {act : Act} {id : ℕ} {k : String}

/-- How many accesses a producer is from its last. -/
def Producer.stage : Producer → ℕ
  | .checkEither _ _ _ => 4
  | .sleeping _ _ | .checkScheduled _ _ _ => 3
  | .checkPending _ | .insertScheduled _ _ _ => 2
  | .insertPending _ | .readClock _ _ _ => 1
  | .sendReady _ | .sendDelayed _ => 0

namespace Queue

/-- **A key on its way.** -/
inductive OnWay (q : Queue) (k : String) : Prop
  | opened {id : ℕ} {p : Producer} (h : q.producers id = some p) (hk : p.key = k)
  | ready (token : q.ReadyToken k)
  | delayed (token : q.DelayToken k)
  | carried (h : q.Carries k)

/-- A call puts its key on its way. -/
theorem onWay_call {call : Call} (hcall : ∀ item, call ≠ .requeueWithBackoff item)
    (h : q.step config (.call id call) = some q') : q'.OnWay call.key := by
  simp only [step] at h
  split_ifs at h
  cases h
  cases call with
  | requeueWithBackoff item => exact absurd rfl (hcall item)
  | enqueue key => exact .opened (setProducer_producers q id _ id |>.trans (if_pos rfl)) rfl
  | enqueueAfter key delay chain =>
    exact .opened (setProducer_producers q id _ id |>.trans (if_pos rfl)) rfl

/-- **An open call** comes nearer to its end with each access, or leaves a
token. -/
theorem step_opened (hq : q.Marked config) {p : Producer} (hp : q.producers id = some p)
    (h : q.step config (.producer id) = some q') :
    (∃ p', q'.producers id = some p' ∧ p'.key = p.key ∧ p'.stage < p.stage) ∨
      q'.ReadyToken p.key ∨ q'.DelayToken p.key := by
  by_cases hret : (q.returns config id).isSome
  · exact .inr (FairRun.token_of_returns hq hp hret h)
  · left
    have hset (q1 : Queue) (p' : Producer) : (q1.setProducer id (some p')).producers id = some p' :=
      (setProducer_producers q1 id _ id).trans (if_pos rfl)
    simp only [step, hp] at h
    simp only [returns, hp, Option.bind_some] at hret
    cases p with
    | _ =>
      simp only [stepProducer] at h hret
      grind [Producer.stage, Producer.key]

/-- **A key stays on its way** until it is handed out. -/
theorem OnWay.step (h : q.OnWay k) (hq : q.Marked config) (hstep : q.step config act = some q') :
    q'.OnWay k ∨ q.HandsOut act k := by
  cases h with
  | @opened id p hp hk =>
    left
    by_cases hact : act = .producer id
    · rw [hact] at hstep
      rcases step_opened hq hp hstep with ⟨p', hp', hkey, -⟩ | token | token
      · exact .opened hp' (hkey.trans hk)
      · exact .ready (hk ▸ token)
      · exact .delayed (hk ▸ token)
    · exact .opened (step_producers hstep hp hact) hk
  | ready token => exact (token.step hstep).imp_left .ready
  | delayed token =>
    left
    rcases token.step hstep with token | ⟨rfl, now, item, hloop, hk⟩
    · exact .delayed token
    · have hcarries : q.Carries k := ⟨now, item, hk, .inl hloop⟩
      rcases hcarries.step_turn hstep rfl with ⟨hcarries, -⟩ | hmarked | token
      · exact .carried hcarries
      · exact .ready (((hq.pending k hmarked).step hstep).resolve_right fun hout => nomatch hout.1)
      · exact .ready token
  | carried hcarries =>
    by_cases hturn : act.turn = some .delayLoop
    · rcases hcarries.step_turn hstep hturn with ⟨hcarries, -⟩ | hmarked | token
      · exact .inl (.carried hcarries)
      · exact ((hq.pending k hmarked).step hstep).imp_left .ready
      · exact .inl (.ready token)
    · have hloop := (step_busy hstep (FairRun.ne_select hcarries.busy) hturn).1
      obtain ⟨now, item, hk, hplace⟩ := hcarries
      exact .inl (.carried ⟨now, item, hk, hloop ▸ hplace⟩)

/-- Nothing is queued, scheduled or held. -/
def rests (q : Queue) : Bool :=
  q.ready.isEmpty && q.delayed.isEmpty && q.heap.isEmpty && q.delayLoop = .select &&
    q.consumer = .idle

/-- **Nothing is on its way** where nothing is open, queued, scheduled or
held. -/
theorem not_onWay (hproducers : ∀ id, q.producers id = none) (hrests : q.rests)
    (k : String) : ¬ q.OnWay k := by
  simp only [rests, Bool.and_eq_true, List.isEmpty_iff, decide_eq_true_eq] at hrests
  obtain ⟨⟨⟨⟨hready, hdel⟩, hheap⟩, hloop⟩, hconsumer⟩ := hrests
  intro h
  cases h with
  | opened h hk => simp [hproducers] at h
  | ready token => cases token <;> simp_all
  | delayed token => cases token <;> simp_all
  | carried hcarries =>
    have hbusy := hcarries.busy
    rw [hloop] at hbusy
    cases hbusy

end Queue

namespace FairRun

variable {b : Behaviour (Queue.step config)} {n : ℕ}

/-- A producer can make its next access again and again. -/
theorem producer_enabled (hb : FairRun config b) (id : ℕ) (p : Producer) (n : ℕ) :
    Eventually (fun m => ((b.state m).stepProducer config id p).isSome) n := by
  cases p with
  | sleeping wakeAt item =>
    obtain ⟨m, hm⟩ := hb.time wakeAt
    refine ⟨max n m, le_max_left _ _, ?_⟩
    have hnow : wakeAt ≤ (b.state (max n m)).now := hm.trans (now_mono (le_max_right n m))
    simp [stepProducer, hnow]
  | sendReady item =>
    obtain ⟨m, hm, hroom⟩ := hb.room_ready n
    exact ⟨m, hm, by simp [stepProducer, hroom]⟩
  | sendDelayed item =>
    obtain ⟨m, hm, hroom⟩ := hb.room_delayed n
    exact ⟨m, hm, by simp [stepProducer, hroom]⟩
  | checkPending item | checkEither key delay chain | checkScheduled key delay chain =>
    refine .now ?_
    simp only [stepProducer]
    split_ifs <;> rfl
  | _ => exact .now rfl

/-- **The key of an open call is handed out.** -/
theorem opened_handsOut (hb : FairRun config b) {p : Producer}
    (hp : (b.state n).producers id = some p) :
    Eventually (fun m => (b.state m).HandsOut (b.act m) p.key) n := by
  induction hstage : p.stage using Nat.strong_induction_on generalizing p n with
  | _ i ih =>
    refine hb.producer_leads (hb.producer_enabled id p) (fun m hp hnext _ => ?_) hp
    rcases step_opened (hb.marked m) hp hnext with ⟨p', hp', hkey, hlt⟩ | token | token
    · rw [← hkey]
      exact ih p'.stage (hstage ▸ hlt) hp' rfl
    · exact hb.readyToken_handsOut token
    · exact hb.delayToken_handsOut token

/-- **A key on its way is handed out.** -/
theorem onWay_handsOut (hb : FairRun config b) (h : (b.state n).OnWay k) :
    Eventually (fun m => (b.state m).HandsOut (b.act m) k) n := by
  cases h with
  | opened hp hk => exact hk ▸ hb.opened_handsOut hp
  | ready token => exact hb.readyToken_handsOut token
  | delayed token => exact hb.delayToken_handsOut token
  | carried hcarries => exact hb.carried_handsOut hcarries

/-- A key stays on its way as long as it is not handed out. -/
theorem onWay_of_not_handsOut (hb : FairRun config b) (h : (b.state n).OnWay k) {m : ℕ}
    (hnm : n ≤ m) (hnot : ∀ l, n ≤ l → l < m → ¬ (b.state l).HandsOut (b.act l) k) :
    (b.state m).OnWay k := by
  induction m, hnm using Nat.le_induction with
  | base => exact h
  | succ m hm ih =>
    have honWay := ih fun l hl hlm => hnot l hl (hlm.trans (Nat.lt_succ_self m))
    exact (honWay.step (hb.marked m) (b.next m)).resolve_right (hnot m hm (Nat.lt_succ_self m))

end FairRun

end Edgion.Workqueue
