import Edgion.Common.Steps
import Edgion.Controller.Workers
import Mathlib.Data.Multiset.DershowitzManna
import Mathlib.Data.Prod.Lex

/-!
# Controller — cascades end

An event from outside starts a cascade: the resource it names is
processed, its handler requeues others, these requeue others again. The
dependencies may run in circles, and items of several cascades meet in one
queue, where one of two for the same key is dropped. Every item carries
the chain of those that led to it, and a requeue is dropped if its target
is in the chain as often as the limit says.

So no resource is in a chain more often than that, and over finitely many
resources the chains are bounded in length. Processing an item replaces it
by finitely many with longer chains; such replacements cannot go on for
ever.
-/

namespace Edgion.Controller

open Workqueue Common Multiset Function Nat Option

universe u

variable {V : Type u} {config : WorkqueueConfig} {maxTriggerCycles requeueDelay : ℕ}
variable {resources : Finset TriggerSource} {s s' : ControlPlane V} {t c : Tag}

/-! ## Chains -/

theorem occurrenceCount_extend (chain : TriggerChain) (kind key kind' key' : String) :
    (chain.extend kind key).occurrenceCount kind' key' =
      chain.occurrenceCount kind' key' + if kind = kind' ∧ key = key' then 1 else 0 := by
  unfold TriggerChain.occurrenceCount TriggerChain.extend
  rw [List.filter_append, List.length_append]
  by_cases h : kind = kind' ∧ key = key'
  · simp [h]
  · have hnot : (decide (kind = kind') && decide (key = key')) = false := by simpa using h
    simp [hnot, h]

/-- `occurrence_count` counts the sources of a chain that equal the given one. -/
theorem occurrenceCount_eq_count (chain : TriggerChain) (source : TriggerSource) :
    chain.occurrenceCount source.kind source.key = chain.count source := by
  rw [List.count_eq_length_filter, TriggerChain.occurrenceCount]
  congr 1
  refine List.filter_congr fun s _ => ?_
  rcases s with ⟨kind, key⟩
  rcases source with ⟨kind', key'⟩
  simp [TriggerSource.mk.injEq, beq_eq_decide]

/-- **A chain is bounded in length** by how often each resource is in it. -/
theorem length_le_of_count_le {chain : TriggerChain} (hmem : ∀ source ∈ chain, source ∈ resources)
    (hcount : ∀ kind key, chain.occurrenceCount kind key ≤ maxTriggerCycles) :
    chain.length ≤ resources.card * maxTriggerCycles := by
  calc chain.length = ∑ source ∈ chain.toFinset, chain.count source :=
        (List.sum_toFinset_count_eq_length chain).symm
    _ ≤ ∑ _source ∈ chain.toFinset, maxTriggerCycles := by
        refine Finset.sum_le_sum fun source _ => ?_
        rw [← occurrenceCount_eq_count]
        exact hcount source.kind source.key
    _ = chain.toFinset.card * maxTriggerCycles := by rw [Finset.sum_const, nsmul_eq_mul, cast_id]
    _ ≤ resources.card * maxTriggerCycles := by
        refine mul_le_mul_right _ (Finset.card_le_card fun source hsource => ?_)
        exact hmem source (List.mem_toFinset.1 hsource)

/-! ## Items -/

/-- **What holds of every item**: no resource is in its chain more often than
the limit, and its own less often. -/
structure Tag.Valid (resources : Finset TriggerSource) (maxTriggerCycles : ℕ) (t : Tag) :
    Prop where
  count_le : ∀ kind key, t.entry.2.occurrenceCount kind key ≤ maxTriggerCycles
  self_lt : t.entry.2 = [] ∨ t.entry.2.occurrenceCount t.kind t.entry.1 < maxTriggerCycles
  chain_mem : ∀ source ∈ t.entry.2, source ∈ resources
  self_mem : ⟨t.kind, t.entry.1⟩ ∈ resources

namespace Tag

/-- The chain of the context the item is processed in. -/
theorem Valid.extend_le (h : t.Valid resources maxTriggerCycles) (hmax : 0 < maxTriggerCycles)
    (kind key : String) :
    (t.entry.2.extend t.kind t.entry.1).occurrenceCount kind key ≤ maxTriggerCycles := by
  rw [occurrenceCount_extend]
  split_ifs with hself
  · obtain ⟨rfl, rfl⟩ := hself
    rcases h.self_lt with hnil | hlt
    · rw [hnil]
      exact hmax
    · exact hlt
  · exact h.count_le kind key

/-- **What an item is replaced by**: itself, with less left to do, or an item
that its handler requeues. -/
inductive Yields (resources : Finset TriggerSource) (maxTriggerCycles : ℕ) (t : Tag) : Tag → Prop
  | taken (targets : ℕ) (hleft : t.left = none) :
      Yields resources maxTriggerCycles t { t with left := some targets }
  | fewer {i j : ℕ} (hleft : t.left = some i) (hij : j < i) :
      Yields resources maxTriggerCycles t { t with left := some j }
  | requeued {i : ℕ} (hleft : t.left = some i) (target : TriggerSource)
      (htarget : target ∈ resources)
      (hlimit : (t.entry.2.extend t.kind t.entry.1).occurrenceCount target.kind target.key <
        maxTriggerCycles) :
      Yields resources maxTriggerCycles t
        ⟨t.event, target.kind, (target.key, t.entry.2.extend t.kind t.entry.1), none⟩

variable (h : t.Yields resources maxTriggerCycles c)

include h

theorem Yields.event_eq : c.event = t.event := by
  cases h <;> rfl

/-- What a valid item is replaced by is valid. -/
theorem Yields.valid
    (ht : t.Valid resources maxTriggerCycles) : c.Valid resources maxTriggerCycles := by
  cases h with
  | taken targets hleft => exact { ht with }
  | fewer hleft hij => exact { ht with }
  | requeued hleft target htgt hlimit =>
    refine ⟨ht.extend_le (zero_lt_of_lt hlimit), .inr hlimit, ?_, htgt⟩
    intro source hsource
    rcases List.mem_append.1 hsource with hmem | hmem
    · exact ht.chain_mem source hmem
    · rw [List.mem_singleton.1 hmem]
      exact ht.self_mem

/-- How far an item is from the end: what its chain may still grow by, and,
once it is in work, what is left of the work. -/
def rank (resources : Finset TriggerSource) (maxTriggerCycles : ℕ) (t : Tag) : ℕ ×ₗ ℕ :=
  let room := resources.card * maxTriggerCycles + 1 - t.entry.2.length
  match t.left with
  | none => toLex (2 * room + 1, 0)
  | some left => toLex (2 * room, left)

/-- **Each replacement is nearer to the end.** -/
theorem Yields.rank_lt (ht : t.Valid resources maxTriggerCycles) :
    c.rank resources maxTriggerCycles < t.rank resources maxTriggerCycles := by
  have hvalid := h.valid ht
  cases h with
  | taken targets hleft =>
    simp only [rank, hleft, Prod.Lex.toLex_lt_toLex]
    omega
  | fewer hleft hij =>
    simp only [rank, hleft, Prod.Lex.toLex_lt_toLex]
    exact .inr ⟨trivial, hij⟩
  | requeued hleft target htgt hlimit =>
    have hlen := length_le_of_count_le hvalid.chain_mem hvalid.count_le
    simp only [rank, hleft, Prod.Lex.toLex_lt_toLex]
    simp only [TriggerChain.extend, List.length_append, List.length_singleton] at hlen ⊢
    omega

end Tag

/-- The chain of the item that is processed. -/
def Worker.chain : Worker → TriggerChain
  | .idle => []
  | .processing _ _ chain _ _ => chain

namespace ControlPlane

/-! ## The account -/

/-- The items of a kind that the account has in flight. -/
def flying (tags : Multiset Tag) (kind : String) : Multiset Entry :=
  (tags.filter fun t => t.kind = kind ∧ t.left = none).map Tag.entry

theorem flying_cons (t : Tag) (tags : Multiset Tag) (kind : String) : flying (t ::ₘ tags) kind =
      (if t.kind = kind ∧ t.left = none then {t.entry} else 0) + flying tags kind := by
  unfold flying
  split_ifs with h
  · rw [filter_cons_of_pos (p := fun t : Tag => t.kind = kind ∧ t.left = none) _ h,
      map_cons, singleton_add]
  · rw [filter_cons_of_neg (p := fun t : Tag => t.kind = kind ∧ t.left = none) _ h, zero_add]

/-- What is left without a tag. -/
theorem exists_erase {tags : Multiset Tag} (ht : t ∈ tags) :
    ∃ rest, tags = t ::ₘ rest ∧ tags.erase t = rest :=
  ⟨_, (cons_erase ht).symm, rfl⟩

/-- **The account is right**: each item is valid, those in flight are
accounted for, and so are those in work. -/
structure Accounted (resources : Finset TriggerSource) (maxTriggerCycles : ℕ)
    (s : ControlPlane V) : Prop where
  valid : ∀ t ∈ s.tags, t.Valid resources maxTriggerCycles
  started : ∀ t ∈ s.tags, t.event < s.events
  inFlight : ∀ kind n, (s.queues kind).inFlight n ≤ flying s.tags kind
  inWork : ∀ kind event key chain todo requeued,
    s.workers kind = .processing event key chain todo requeued →
      ⟨event, kind, (key, chain), some todo.length⟩ ∈ s.tags ∧ ∀ target ∈ todo, target ∈ resources

/-- What an act names is among the given resources. -/
def Within (resources : Finset TriggerSource) : ControlAct V → Prop
  | .external kind key _ => ⟨kind, key⟩ ∈ resources
  | .handOut _ _ targets => ∀ target ∈ targets, target ∈ resources
  | .queue _ _ | .requeue _ _ | .write _ _ | .tick _ => True

/-- **What a step does to the account**: nothing, or it notes a new event, or
it replaces an item. -/
inductive AccountStep (resources : Finset TriggerSource) (maxTriggerCycles : ℕ)
    (s s' : ControlPlane V) : ControlAct V → Prop
  | same (act : ControlAct V) (hact : ∀ kind event targets, act ≠ .handOut kind event targets)
      (htags : s'.tags = s.tags) (hevents : s'.events = s.events) :
      AccountStep resources maxTriggerCycles s s' act
  | external (kind key : String) (id : ℕ) (hmem : ⟨kind, key⟩ ∈ resources)
      (htags : s'.tags = ⟨s.events, kind, (key, []), none⟩ ::ₘ s.tags)
      (hevents : s'.events = s.events + 1) :
      AccountStep resources maxTriggerCycles s s' (.external kind key id)
  | replaced (act : ControlAct V) (t : Tag) (rest children : Multiset Tag)
      (hact : ∀ kind event targets, act = .handOut kind event targets → t.event = event)
      (htags : s.tags = t ::ₘ rest) (htags' : s'.tags = children + rest)
      (hyields : ∀ c ∈ children, t.Yields resources maxTriggerCycles c)
      (hevents : s'.events = s.events) :
      AccountStep resources maxTriggerCycles s s' act

variable {kind : String} {act : ControlAct V}

/-- What is in flight is accounted for, after a step of one queue. -/
theorem inFlight_update {queues : String → Queue} {q : Queue}
    {tags tags' : Multiset Tag} (h : ∀ kind n, (queues kind).inFlight n ≤ flying tags kind)
    (hq : ∀ n, q.inFlight n ≤ flying tags' kind)
    (hother : ∀ kind', kind' ≠ kind → flying tags kind' ≤ flying tags' kind') (kind' : String)
    (n : ℕ) : (update queues kind q kind').inFlight n ≤ flying tags' kind' := by
  by_cases hkind : kind' = kind
  · subst hkind
    rw [update_self]
    exact hq n
  · rw [update_of_ne hkind]
    exact (h kind' n).trans (hother kind' hkind)

/-- An item in work is not in flight. -/
theorem flying_inWork (event left : ℕ) (kind kind' : String) (entry : Entry) (rest : Multiset Tag) :
    flying (⟨event, kind, entry, some left⟩ ::ₘ rest) kind' = flying rest kind' := by
  rw [flying_cons, if_neg fun h => some_ne_none left h.2, zero_add]

theorem accounted_new : (new : ControlPlane V).Accounted resources maxTriggerCycles where
  valid t ht := absurd ht (notMem_zero t)
  started t ht := absurd ht (notMem_zero t)
  inFlight kind n := by
    have hnone : ((new : ControlPlane V).queues kind).inFlight n = 0 := Queue.inFlight_new
    rw [hnone]
    exact zero_le _
  inWork kind event key chain todo requeued h := by cases h

section

variable (h : s.Accounted resources maxTriggerCycles)

include h

/-- Valid items make valid items, and no event is forgotten. -/
theorem AccountStep.valid (hstep : AccountStep resources maxTriggerCycles s s' act) :
    ∀ t ∈ s'.tags, t.Valid resources maxTriggerCycles ∧ t.event < s'.events := by
  intro t ht
  cases hstep with
  | same _ hact htags hevs =>
    rw [htags] at ht
    rw [hevs]
    exact ⟨h.valid t ht, h.started t ht⟩
  | external kind key id hmem htags hevs =>
    rw [htags] at ht
    rw [hevs]
    rcases mem_cons.1 ht with rfl | ht
    · exact ⟨⟨fun _ _ => zero_le _, .inl rfl, nofun, hmem⟩, lt_succ_self _⟩
    · exact ⟨h.valid t ht, lt_succ_of_lt (h.started t ht)⟩
  | replaced _ t0 rest children hact htags htags' hyields hevs =>
    rw [htags'] at ht
    rw [hevs]
    have ht0 : t0 ∈ s.tags := htags ▸ mem_cons_self t0 rest
    rcases mem_add.1 ht with hc | hrest
    · refine ⟨(hyields t hc).valid (h.valid t0 ht0), ?_⟩
      rw [(hyields t hc).event_eq]
      exact h.started t0 ht0
    · have ht : t ∈ s.tags := htags ▸ mem_cons_of_mem hrest
      exact ⟨h.valid t ht, h.started t ht⟩

/-- A step that keeps the account of what is in flight and of what is in work
keeps the whole account. -/
theorem Accounted.account (hstep : AccountStep resources maxTriggerCycles s s' act)
    (hinFlight : ∀ kind n, (s'.queues kind).inFlight n ≤ flying s'.tags kind)
    (hinWork : ∀ kind event key chain todo requeued,
      s'.workers kind = .processing event key chain todo requeued →
        ⟨event, kind, (key, chain), some todo.length⟩ ∈ s'.tags ∧
          ∀ target ∈ todo, target ∈ resources) :
    AccountStep resources maxTriggerCycles s s' act ∧ s'.Accounted resources maxTriggerCycles :=
  ⟨hstep, fun t ht => (hstep.valid h t ht).1, fun t ht => (hstep.valid h t ht).2, hinFlight,
    hinWork⟩

/-- The items in work, after a step that replaces one of a kind: those of another
kind keep their tags. -/
theorem Accounted.inWork_update {w : Worker} {t : Tag} {rest tags' : Multiset Tag} (htags : s.tags = t ::ₘ rest)
    (ht : t.kind = kind) (hrest : rest ≤ tags')
    (hw : ∀ event key chain todo requeued, w = .processing event key chain todo requeued →
      ⟨event, kind, (key, chain), some todo.length⟩ ∈ tags' ∧ ∀ target ∈ todo, target ∈ resources) :
    ∀ kind' event key chain todo requeued,
      update s.workers kind w kind' = .processing event key chain todo requeued →
      ⟨event, kind', (key, chain), some todo.length⟩ ∈ tags' ∧
        ∀ target ∈ todo, target ∈ resources := by
  intro kind' event key chain todo requeued hwk
  by_cases hkind : kind' = kind
  · subst hkind
    rw [update_self] at hwk
    exact hw _ _ _ _ _ hwk
  · rw [update_of_ne hkind] at hwk
    obtain ⟨htag, htodo⟩ := h.inWork _ _ _ _ _ _ hwk
    rw [htags] at htag
    refine ⟨mem_of_le hrest ((mem_cons.1 htag).resolve_left fun heq => hkind ?_), htodo⟩
    exact (congrArg Tag.kind heq).trans ht

/-- **Each step is one of these, and the account stays right.** -/
theorem Accounted.accountStep (hact : Within resources act)
    (hstep : s.step config maxTriggerCycles requeueDelay act = some s') :
    AccountStep resources maxTriggerCycles s s' act ∧ s'.Accounted resources maxTriggerCycles := by
  cases act with
  | external kind key id =>
    obtain ⟨q, hq, rfl⟩ := step_external hstep
    refine h.account (.external kind key id hact rfl rfl)
      (inFlight_update h.inFlight (fun n => ?_) fun kind' hkind => ?_) ?_
    · obtain ⟨m, hm⟩ := Queue.exists_inFlight_call hq n
      rw [flying_cons, if_pos ⟨rfl, rfl⟩, add_comm]
      exact hm.trans (add_le_add_left (h.inFlight kind m) _)
    · rw [flying_cons, if_neg fun heq => hkind heq.1.symm, zero_add]
    · intro kind' event key' chain todo requeued hwk
      obtain ⟨htag, htodo⟩ := h.inWork _ _ _ _ _ _ hwk
      exact ⟨mem_cons_of_mem htag, htodo⟩
  | queue kind act =>
    obtain ⟨hcall, -, q, hq, rfl⟩ := step_queue hstep
    refine h.account (.same _ (by simp) rfl rfl)
      (inFlight_update h.inFlight (fun n => ?_) fun _ _ => le_rfl) h.inWork
    obtain ⟨m, hm⟩ := Queue.exists_inFlight_step hq hcall n
    exact (Multiset.le_add_right _ _).trans (hm.trans (h.inFlight kind m))
  | handOut kind event targets =>
    obtain ⟨item, q, -, hholding, htag, hq, rfl⟩ := step_handOut hstep
    obtain ⟨rest, hrest, htags⟩ := exists_erase htag
    have hflying : ∀ kind', flying s.tags kind' =
        (if kind = kind' then {item.entry} else 0) + flying rest kind' := by
      intro kind'
      rw [hrest, flying_cons]
      simp
    refine h.account (.replaced _ _ rest
      {⟨event, kind, item.entry, some targets.length⟩} ?_ hrest ?_ ?_ rfl) ?_ ?_
    · rintro _ _ _ ⟨⟩
      rfl
    · rw [htags, singleton_add]
    · intro c hc
      rw [mem_singleton.1 hc]
      exact .taken targets.length rfl
    · rw [htags]
      refine inFlight_update h.inFlight (fun n => ?_) fun kind' hkind => ?_
      · obtain ⟨m, hm⟩ := Queue.exists_inFlight_step hq (fun _ _ h => by cases h) n
        have hle := hm.trans (h.inFlight kind m)
        rw [hflying, if_pos rfl, Queue.handedOut, hholding, Consumer.entries, add_comm] at hle
        rw [flying_inWork]
        exact le_of_add_le_add_left hle
      · rw [hflying, if_neg (Ne.symm hkind), zero_add, flying_inWork]
    · rw [htags]
      refine h.inWork_update hrest rfl (le_cons_self _ _) ?_
      rintro _ _ _ _ _ ⟨⟩
      exact ⟨mem_cons_self _ _, hact⟩
  | requeue kind id =>
    obtain ⟨event, key, chain, target, todo, requeued, hwk, hcases⟩ := step_requeue hstep
    obtain ⟨htag, htodo⟩ := h.inWork _ _ _ _ _ _ hwk
    obtain ⟨rest, hrest, htags⟩ := exists_erase htag
    rw [List.length_cons] at hrest htags
    have hfewer : Tag.Yields resources maxTriggerCycles
        ⟨event, kind, (key, chain), some (todo.length + 1)⟩
        ⟨event, kind, (key, chain), some todo.length⟩ :=
      .fewer rfl (lt_succ_self _)
    have htodo' : ∀ target ∈ todo, target ∈ resources := fun target ht =>
      htodo target (List.mem_cons_of_mem _ ht)
    have hflying : ∀ kind', flying s.tags kind' = flying rest kind' := by
      intro kind'
      rw [hrest, flying_inWork]
    obtain ⟨-, rfl⟩ | ⟨q, hlimit, hq, rfl⟩ := hcases
    · refine h.account (.replaced _ _ rest
        {⟨event, kind, (key, chain), some todo.length⟩} (by simp) hrest ?_ ?_ rfl) ?_ ?_
      · rw [htags, singleton_add]
      · intro c hc
        rw [mem_singleton.1 hc]
        exact hfewer
      · intro kind' n
        rw [htags, flying_inWork, ← hflying]
        exact h.inFlight kind' n
      · rw [htags]
        refine h.inWork_update hrest rfl (le_cons_self _ _) ?_
        rintro _ _ _ _ _ ⟨⟩
        exact ⟨mem_cons_self _ _, htodo'⟩
    · refine h.account (.replaced _ _ rest
        ({⟨event, target.kind, (target.key, chain.extend kind key), none⟩} +
          {⟨event, kind, (key, chain), some todo.length⟩}) (by simp) hrest ?_ ?_ rfl) ?_ ?_
      · rw [htags, add_assoc, singleton_add, singleton_add]
        rfl
      · intro c hc
        rcases mem_add.1 hc with hc | hc <;> rw [mem_singleton.1 hc]
        · exact .requeued rfl target (htodo target List.mem_cons_self) hlimit
        · exact hfewer
      · rw [htags]
        refine inFlight_update h.inFlight (fun n => ?_) fun kind' hkind => ?_
        · obtain ⟨m, hm⟩ := Queue.exists_inFlight_call hq n
          rw [flying_cons, if_pos ⟨rfl, rfl⟩, flying_inWork, ← hflying, add_comm]
          exact hm.trans (add_le_add_left (h.inFlight target.kind m) _)
        · rw [flying_cons, if_neg fun heq => hkind heq.1.symm, zero_add, flying_inWork, hflying]
      · rw [htags]
        refine h.inWork_update hrest rfl ((le_cons_self _ _).trans (le_cons_self _ _)) ?_
        rintro _ _ _ _ _ ⟨⟩
        exact ⟨mem_cons_of_mem (mem_cons_self _ _), htodo'⟩
  | write kind outcome =>
    obtain ⟨event, key, chain, requeued, hwk, rfl⟩ := step_write hstep
    obtain ⟨htag, -⟩ := h.inWork _ _ _ _ _ _ hwk
    obtain ⟨rest, hrest, htags⟩ := exists_erase htag
    rw [List.length_nil] at hrest htags
    have hqueues : (s.writeCache kind key outcome).queues = s.queues := by cases outcome <;> rfl
    have hevs : (s.writeCache kind key outcome).events = s.events := by cases outcome <;> rfl
    refine h.account (.replaced _ _ rest 0 (by simp) hrest ?_
      (fun c hc => absurd hc (notMem_zero c)) hevs) ?_ ?_
    · rw [htags, zero_add]
    · intro kind' n
      have hle := h.inFlight kind' n
      rw [hrest, flying_inWork] at hle
      rw [hqueues, htags]
      exact hle
    · rw [htags]
      exact h.inWork_update hrest rfl le_rfl fun _ _ _ _ _ hw => by cases hw
  | tick duration =>
    cases hstep
    exact h.account (.same _ (by simp) rfl rfl) h.inFlight h.inWork

/-- **The account stands in nobody's way**: an item that is to be handed out
comes from some event. -/
theorem Accounted.exists_handOut {item : WorkItem} (hidle : s.workers kind = .idle)
    (hholding : (s.queues kind).consumer = .holding item) (targets : List TriggerSource) :
    ∃ event, (s.step config maxTriggerCycles requeueDelay
      (.handOut kind event targets)).isSome := by
  have hflying : item.entry ∈ (s.queues kind).inFlight 0 := by
    rw [Queue.inFlight, hholding]
    exact mem_add.2 (.inr (mem_singleton_self _))
  obtain ⟨t, ht, hentry⟩ := mem_map.1 (mem_of_le (h.inFlight kind 0) hflying)
  obtain ⟨htag, rfl, hleft⟩ := mem_filter.1 ht
  have hmem : (⟨t.event, t.kind, item.entry, none⟩ : Tag) ∈ s.tags := by
    rwa [← hentry, ← hleft]
  refine ⟨t.event, ?_⟩
  simp [step, hidle, hholding, hmem, stepQueue, Queue.step]

end

/-! ## Every cascade ends -/

/-- How far a cascade is from its end. -/
def distance (resources : Finset TriggerSource) (maxTriggerCycles event : ℕ)
    (s : ControlPlane V) : Multiset (ℕ ×ₗ ℕ) :=
  (s.tags.filter fun t => t.event = event).map (Tag.rank resources maxTriggerCycles)

/-- Only a step of its own changes the distance of a cascade, and lowers it. -/
theorem AccountStep.distance {event : ℕ} (hstep : AccountStep resources maxTriggerCycles s s' act)
    (h : s.Accounted resources maxTriggerCycles) (hstarted : event < s.events) :
    (s'.distance resources maxTriggerCycles event = s.distance resources maxTriggerCycles event ∧
      ∀ kind targets, act ≠ .handOut kind event targets) ∨
    IsDershowitzMannaLT (s'.distance resources maxTriggerCycles event)
      (s.distance resources maxTriggerCycles event) := by
  cases hstep with
  | same _ hact htags hevs =>
    refine .inl ⟨?_, fun kind targets => hact kind event targets⟩
    rw [ControlPlane.distance, htags, ControlPlane.distance]
  | external kind key id hmem htags hevs =>
    refine .inl ⟨?_, nofun⟩
    rw [distance, htags, filter_cons_of_neg
      (p := fun t : Tag => t.event = event) _ (ne_of_gt hstarted), distance]
  | replaced _ t rest children hact htags htags' hyields hevs =>
    by_cases hevent : t.event = event
    · have ht : t.Valid resources maxTriggerCycles := h.valid t (htags ▸ mem_cons_self t rest)
      have hchildren : children.filter (fun c => c.event = event) = children :=
        filter_eq_self.2 fun c hc => (hyields c hc).event_eq.trans hevent
      refine .inr ⟨(rest.filter fun c => c.event = event).map (Tag.rank resources maxTriggerCycles),
        children.map (Tag.rank resources maxTriggerCycles), {t.rank resources maxTriggerCycles},
        singleton_ne_zero _, ?_, ?_, ?_⟩
      · rw [ControlPlane.distance, htags', filter_add, hchildren, map_add, add_comm]
      · rw [ControlPlane.distance, htags,
          filter_cons_of_pos (p := fun t : Tag => t.event = event) _ hevent, map_cons,
          ← singleton_add, add_comm]
      · intro r hr
        obtain ⟨c, hc, rfl⟩ := mem_map.1 hr
        exact ⟨_, mem_singleton_self _, (hyields c hc).rank_lt ht⟩
    · refine .inl ⟨?_, fun kind targets heq => hevent (hact kind event targets heq)⟩
      have hchildren : children.filter (fun c => c.event = event) = 0 :=
        filter_eq_nil.2 fun c hc heq => hevent ((hyields c hc).event_eq.symm.trans heq)
      rw [ControlPlane.distance, htags', filter_add, hchildren, zero_add,
        ControlPlane.distance, htags,
        filter_cons_of_neg (p := fun t : Tag => t.event = event) _ hevent]

theorem AccountStep.events_le
    (hstep : AccountStep resources maxTriggerCycles s s' act) : s.events ≤ s'.events := by
  cases hstep with
  | same _ hact htags hevs => exact hevs.ge
  | external kind key id hmem htags hevs => omega
  | replaced _ t rest children hact htags htags' hyields hevs => exact hevs.ge

/-- **Cascades end.** However the handlers requeue the given resources, and
however the parties of all kinds take turns: the items that come from one
event are processed finitely often; in the chain of an item no resource
occurs more often than the limit, nor in the chain of its context; and each
item that is handed out comes from an event. -/
theorem cascades_end {b : Behaviour (step (V := V) config maxTriggerCycles requeueDelay)}
    (hinit : b.state 0 = new) (hact : ∀ n, Within resources (b.act n)) :
    (∀ event, {n | ∃ kind targets, b.act n = .handOut kind event targets}.Finite) ∧
    (∀ n kind m entry, entry ∈ ((b.state n).queues kind).inFlight m → ∀ kind' key',
      entry.2.occurrenceCount kind' key' ≤ maxTriggerCycles ∧
      (0 < maxTriggerCycles →
        (entry.2.extend kind entry.1).occurrenceCount kind' key' ≤ maxTriggerCycles)) ∧
    ∀ n kind item, (b.state n).workers kind = .idle →
      ((b.state n).queues kind).consumer = .holding item → ∀ targets, ∃ event,
        ((b.state n).step config maxTriggerCycles requeueDelay
          (.handOut kind event targets)).isSome := by
  have haccounted (n : ℕ) : (b.state n).Accounted resources maxTriggerCycles := by
    induction n with
    | zero =>
      rw [hinit]
      exact accounted_new
    | succ n ih => exact (ih.accountStep (hact n) (b.next n)).2
  have hstep (n : ℕ) := ((haccounted n).accountStep (hact n) (b.next n)).1
  refine ⟨fun event => ?_, fun n kind m entry hentry kind' key' => ?_,
    fun n kind item hidle hholding targets => (haccounted n).exists_handOut hidle hholding targets⟩
  · by_cases hsome : ∃ n₀ kind targets, b.act n₀ = .handOut kind event targets
    · obtain ⟨n₀, kind, targets, hn₀⟩ := hsome
      -- from its first item on the event has started
      have hstarted : ∀ n, n₀ ≤ n → event < (b.state n).events := by
        intro n hn
        induction n, hn using le_induction with
        | base =>
          have hnext := b.next n₀
          rw [hn₀] at hnext
          obtain ⟨item, q, -, -, htag, -⟩ := step_handOut hnext
          exact (haccounted n₀).started _ htag
        | succ n hn ih => exact ih.trans_le (hstep n).events_le
      have hfinite := finite_descents wellFounded_isDershowitzMannaLT
        (f := fun n => (b.state n).distance resources maxTriggerCycles event) n₀
        fun n hn => ((hstep n).distance (haccounted n) (hstarted n hn)).imp_left And.left
      refine ((Set.finite_lt_nat n₀).union hfinite).subset fun n hn => ?_
      obtain ⟨kind, targets, hn⟩ := hn
      rcases lt_or_ge n n₀ with hlt | hge
      · exact .inl hlt
      · refine .inr ⟨hge, ((hstep n).distance (haccounted n) (hstarted n hge)).resolve_left ?_⟩
        exact fun hsame => hsame.2 kind targets hn
    · exact Set.finite_empty.subset fun n ⟨kind, targets, hn⟩ => hsome ⟨n, kind, targets, hn⟩
  · have hflying := mem_of_le ((haccounted n).inFlight kind m) hentry
    obtain ⟨t, ht, rfl⟩ := mem_map.1 hflying
    obtain ⟨htag, rfl, -⟩ := mem_filter.1 ht
    have hvalid := (haccounted n).valid t htag
    exact ⟨hvalid.count_le kind' key', fun hmax => hvalid.extend_le hmax kind' key'⟩

/-! A run: a Gateway that requeues itself, with a limit of two. It is
processed twice; the second time its requeue is dropped. -/

/-- The resource. -/
def edge : TriggerSource := ⟨"Gateway", "edge/a"⟩

/-- The actions of the run. -/
def selfLoopActs : List (ControlAct Unit) :=
  [.external "Gateway" "edge/a" 0] ++
  ([.producer 0, .producer 0, .producer 0, .dequeue, .recv] : List Workqueue.Act).map (.queue "Gateway") ++
  [.handOut "Gateway" 0 [edge], .requeue "Gateway" 0, .write "Gateway" (some (some ()))] ++
  ([.producer 0, .producer 0, .producer 0, .producer 0, .producer 0, .recvDelayed, .fire,
    .pop ⟨"edge/a", [edge], 0⟩, .move, .move, .move, .move, .rest, .dequeue, .recv] :
    List Workqueue.Act).map (.queue "Gateway") ++
  [.handOut "Gateway" 0 [edge], .requeue "Gateway" 0, .write "Gateway" (some (some ()))]

theorem selfLoopActs_taken : ∀ n < selfLoopActs.length,
    (step .default 2 0 (Behaviour.restStates (step .default 2 0) .new selfLoopActs (.tick 1) n)
      (selfLoopActs.getD n (.tick 1))).isSome := by
  decide +kernel

/-- The run; after these actions only time passes. -/
def selfLoop : Behaviour (step (V := Unit) .default 2 0) :=
  .rests _ .new selfLoopActs (.tick 1) selfLoopActs_taken fun _ => rfl

theorem cascades_end_selfLoop :
    {n | ∃ kind targets, selfLoop.act n = .handOut kind 0 targets}.Finite ∧
      selfLoop.act 6 = .handOut "Gateway" 0 [edge] ∧
      selfLoop.act 24 = .handOut "Gateway" 0 [edge] := by
  have hacts : ∀ act ∈ selfLoopActs, Within {edge} act := by
    simp [selfLoopActs, Within, edge]
  have hidle : Within {edge} (.tick 1 : ControlAct Unit) := trivial
  exact ⟨(cascades_end rfl (Behaviour.rests_forall hacts hidle)).1 0, rfl, rfl⟩

/-! ## The depth of chains

The configuration has a `max_trigger_depth`, which no step reads: a
requeue is dropped for the cycles in its chain only. That alone keeps
chains within a depth where there are few resources. -/

variable {depth : ℕ} {acts : List (ControlAct V)}

/-- The account holds after every run from the start. -/
theorem accounted_of_runs (hrun : Runs (step config maxTriggerCycles requeueDelay)
      (fun _ act => Within resources act) (new : ControlPlane V) acts s) :
    s.Accounted resources maxTriggerCycles :=
  hrun.invariant accounted_new fun _ _ _ h hact hstep => (h.accountStep hact hstep).2

/-- **No item is processed whose chain is longer than the depth**, in every run
over so few resources that the cycle limit holds for each of them before the
depth is passed: a chain and the item itself have room for no more. -/
theorem chain_le_depth (hrun : Runs (step config maxTriggerCycles requeueDelay)
      (fun _ act => Within resources act) (new : ControlPlane V) acts s)
    (hdepth : resources.card * maxTriggerCycles ≤ depth + 1) (kind : String) :
    (s.workers kind).chain.length ≤ depth := by
  have h := accounted_of_runs hrun
  cases hworker : s.workers kind with
  | idle => exact zero_le _
  | processing event key chain todo requeued =>
    have hvalid := h.valid _ (h.inWork _ _ _ _ _ _ hworker).1
    rcases hvalid.self_lt with hnil | hlt
    · exact (congrArg List.length hnil).trans_le (zero_le _)
    · -- the chain of the item's context is within the bound, and one longer
      have hlength : (chain.extend kind key).length ≤ resources.card * maxTriggerCycles := by
        refine length_le_of_count_le (fun source hsource => ?_) (hvalid.extend_le (zero_lt_of_lt hlt))
        rcases List.mem_append.1 hsource with hmem | hmem
        · exact hvalid.chain_mem source hmem
        · rw [List.mem_singleton.1 hmem]
          exact hvalid.self_mem
      have hextend : (chain.extend kind key).length = chain.length + 1 := by
        simp [TriggerChain.extend]
      rw [hextend] at hlength
      exact le_of_succ_le_succ (hlength.trans hdepth)

/-- One Gateway that requeues itself, with two cycles: a depth of one is enough. -/
theorem chain_le_depth_selfLoop : ∃ s : ControlPlane Unit,
    Runs (step .default 2 0) (fun _ act => Within {edge} act) new (selfLoopActs.take 25) s ∧
      (s.workers "Gateway").chain = [edge] ∧ (s.workers "Gateway").chain.length ≤ 1 := by
  have htaken : ((runSteps (step .default 2 0) (new : ControlPlane Unit)
      (selfLoopActs.take 25)).map fun s => (s.workers "Gateway").chain) = some [edge] := by
    decide +kernel
  obtain ⟨s, hs, hchain⟩ := map_eq_some_iff.1 htaken
  have hacts : ∀ act ∈ selfLoopActs.take 25, Within {edge} act := by
    simp [selfLoopActs, Within, edge]
  have hrun : Runs (step .default 2 0) (fun _ act => Within {edge} act) new
      (selfLoopActs.take 25) s := .of_runSteps hacts hs
  exact ⟨s, hrun, hchain, chain_le_depth hrun (by decide) "Gateway"⟩

/-- **Chains grow past a depth of one** where three cycles are allowed. -/
theorem chain_exceeds_depth :
    ((runSteps (step .default 3 0) (new : ControlPlane Unit) (selfLoopActs ++
      ([.producer 0, .producer 0, .producer 0, .producer 0, .producer 0, .recvDelayed, .fire,
        .pop ⟨"edge/a", [edge, edge], 0⟩, .move, .move, .move, .move, .rest, .dequeue, .recv] :
        List Workqueue.Act).map (.queue "Gateway") ++ [.handOut "Gateway" 0 []])).map
      fun s => (s.workers "Gateway").chain) = some [edge, edge] := by
  decide +kernel

end ControlPlane

end Edgion.Controller
