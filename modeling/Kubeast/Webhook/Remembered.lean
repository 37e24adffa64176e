import Kubeast.Foundation.Recall
import Kubeast.Foundation.Transition
import Kubeast.Webhook.Deliveries

/-! What the delivery memory answers after any calls of `Seen` and `Take`. Its map and slice always
hold the same IDs, at most `Max` of them. It forgets the oldest first as long as no ID is taken
again behind the back of a later one: `Take` gives such an ID a new time and leaves it in its place. -/
namespace Kubeast.Webhook
open Recent Transition

/-- A call of the memory, with the time it is given. -/
inductive Ask
  | seen (id : String) (now : ℤ)
  | take (id : String) (now : ℤ)

def Ask.time : Ask → ℤ
  | .seen _ now => now
  | .take _ now => now

/-- What a call adds to the IDs taken. -/
def record (log : List (String × ℤ)) : Ask → List (String × ℤ)
  | .seen _ _ => log
  | .take id now => log ++ [(id, now)]

/-- The IDs taken, with the times of the calls. -/
def takes (asks : List Ask) : List (String × ℤ) := exec record [] asks

/-- No ID is taken again while it is recalled and another has been taken since. -/
def TakesInOrder (ttl : ℤ) (max : ℕ) (asks : List Ask) : Prop :=
  Along record (fun log a => match a with
    | .seen _ _ => True
    | .take id now => InOrder ttl max log id now) [] asks

namespace Deliveries

def ask (d : Deliveries) : Ask → Deliveries
  | .seen id now => (d.wasSeen id now).1
  | .take id now => d.take id now

def start (ttl : ℤ) (max : ℕ) : Deliveries := ⟨ttl, max, Table.empty, [], 0⟩

section Calls
variable {d : Deliveries} {ttl now now' : ℤ} {max : ℕ} {asks : List Ask} {a : Ask}

/-- The map and the live part of the slice hold the same IDs, no more than there may be. -/
structure Kept (ttl : ℤ) (max : ℕ) (d : Deliveries) : Prop where
  consistent : Consistent d
  sameTtl : d.ttl = ttl
  sameMax : d.max = max
  length_le : d.memory.length ≤ max

theorem length_memory (h : Consistent d) :
    d.memory.length = (d.order.drop d.head).length ∧ d.memory.length = d.seen.rows.length := by
  have hlength : d.memory.length = (d.order.drop d.head).length := by
    rw [← List.length_map (f := Prod.fst), memory, h.holds.keys]
  exact ⟨hlength, hlength.trans h.holds.length_eq.symm⟩

theorem kept_start (ttl : ℤ) (max : ℕ) : Kept ttl max (start ttl max) :=
  ⟨consistent_start ttl max, rfl, rfl, Nat.zero_le _⟩

theorem Kept.ask (hmax : 0 < max) (h : Kept ttl max d) (a : Ask) : Kept ttl max (d.ask a) := by
  cases a with
  | seen id now =>
    obtain ⟨hconsistent, hmemory, httl, hmax⟩ := consistent_expire h.consistent now
    refine ⟨hconsistent, httl.trans h.sameTtl, hmax.trans h.sameMax, ?_⟩
    show (d.expire now).memory.length ≤ _
    rw [hmemory]
    exact (expire_isSuffix _ _ _).length_le.trans h.length_le
  | take id now =>
    obtain ⟨hconsistent, hmemory, httl, hmax'⟩ := take_refines h.consistent id now
    refine ⟨hconsistent, httl.trans h.sameTtl, hmax'.trans h.sameMax, ?_⟩
    show (d.take id now).memory.length ≤ _
    rw [hmemory, h.sameMax]
    exact length_take_le hmax h.length_le

theorem kept_exec (hmax : 0 < max) (h : Kept ttl max d) (asks : List Ask) :
    Kept ttl max (exec Deliveries.ask d asks) :=
  exec_invariant (fun _ a hd _ => hd.ask hmax a) h (Along.of_forall fun _ _ => trivial)

/-- After calls in order the memory is faithful to the takes. -/
theorem faithful_exec (hmax : 0 < max) (now : ℤ) (htimes : (asks.map Ask.time).Pairwise (· ≤ ·))
    (horder : TakesInOrder ttl max asks) (hnow : ∀ a ∈ asks, a.time ≤ now) :
    Faithful ttl max (takes asks) (exec Deliveries.ask (start ttl max) asks).memory now := by
  induction asks using List.reverseRecOn generalizing now with
  | nil => exact Faithful.nil ttl max now
  | append_singleton asks a ih =>
    rw [List.map_append, List.pairwise_append] at htimes
    obtain ⟨horder, hlast⟩ := along_append.mp horder
    have hbefore := ih a.time htimes.1 horder
      fun b hb => htimes.2.2 b.time (List.mem_map_of_mem hb) a.time (by simp)
    have ha := hnow a (by simp)
    have hkept := kept_exec hmax (kept_start ttl max) asks
    rw [exec_append, exec_cons, exec_nil, takes, exec_append, exec_cons, exec_nil]
    refine Faithful.later ?_ ha
    cases a with
    | seen id now' =>
      have hmemory := (consistent_expire hkept.consistent now').2.1
      rw [hkept.sameTtl] at hmemory
      show Faithful ttl max (takes asks) ((exec Deliveries.ask (start ttl max) asks).expire now').memory now'
      rw [hmemory]
      exact hbefore.expire le_rfl
    | take id now' =>
      have hmemory := (take_refines hkept.consistent id now').2.1
      rw [hkept.sameTtl, hkept.sameMax] at hmemory
      show Faithful ttl max (takes asks ++ [(id, now')])
        ((exec Deliveries.ask (start ttl max) asks).take id now').memory now'
      rw [hmemory]
      exact hbefore.take le_rfl hmax hlast.1

end Calls

section Runs
variable {ttl : ℤ} {max : ℕ}

/-- After any calls at times that do not go back, the slice lists the IDs of the map, at most `max`
of them. Where no ID was taken again behind the back of a later one, an ID is seen exactly while its
last `Take` is less than the TTL ago and fewer than `max` others have been taken since. -/
theorem remembers (hmax : 1 ≤ max) (asks : List Ask) (htimes : (asks.map Ask.time).Pairwise (· ≤ ·)) :
    ((exec ask (start ttl max) asks).order.drop (exec ask (start ttl max) asks).head).Perm
        ((exec ask (start ttl max) asks).seen.rows.map Prod.fst) ∧
      ((exec ask (start ttl max) asks).order.drop (exec ask (start ttl max) asks).head).Nodup ∧
      (exec ask (start ttl max) asks).seen.rows.length ≤ max ∧
      (TakesInOrder ttl max asks → ∀ id now, (∀ a ∈ asks, a.time ≤ now) →
        (((exec ask (start ttl max) asks).wasSeen id now).2 = true ↔
          Recalled ttl max (takes asks) id now)) := by
  have hkept := kept_exec hmax (kept_start ttl max) asks
  refine ⟨hkept.consistent.holds.perm, hkept.consistent.holds.nodup, ?_, ?_⟩
  · rw [← (length_memory hkept.consistent).2]
    exact hkept.length_le
  · intro horder id now hnow
    rw [wasSeen_refines hkept.consistent, hkept.sameTtl]
    exact (faithful_exec hmax now htimes horder hnow).seen_iff le_rfl

def lastAgain : List Ask := [.take "a" 0, .take "b" 0, .seen "a" 5, .take "b" 5, .take "c" 9]

theorem remembers_lastAgain :
    ((exec ask (start 100 2) lastAgain).wasSeen "b" 10).2 = true ↔
      Recalled 100 2 (takes lastAgain) "b" 10 := by
  refine (remembers (by decide) lastAgain (by decide)).2.2.2 ?_ "b" 10 (by decide)
  exact ⟨inOrder_of_new (by decide), inOrder_of_new (by decide), trivial, inOrder_of_last (by decide),
    inOrder_of_new (by decide), trivial⟩

/-- `b` is taken again behind the back of `a`, or the other way round; then a third comes. -/
def againFirst : List Ask := [.take "a" 0, .take "b" 0, .take "a" 0, .take "c" 0]

def againOther : List Ask := [.take "b" 0, .take "a" 0, .take "b" 0, .take "c" 0]

/-- The ID that was taken last is forgotten first: `Take` has left it in its old place. For the same
reason another is remembered when `Max` others have been taken since. -/
theorem retaken_forgotten :
    (((exec ask (start 100 2) againFirst).wasSeen "a" 0).2 = false ∧
      Recalled 100 2 (takes againFirst) "a" 0) ∧
    ((exec ask (start 100 2) againOther).wasSeen "a" 0).2 = true ∧
      ¬ Recalled 100 2 (takes againOther) "a" 0 := by
  have hfirst : takes againFirst = [("a", 0), ("b", 0)] ++ ("a", 0) :: [("c", 0)] := rfl
  have hother : takes againOther = [("b", 0)] ++ ("a", 0) :: [("b", 0), ("c", 0)] := rfl
  rw [hfirst, hother, recalled_append_cons (by decide), recalled_append_cons (by decide)]
  exact ⟨⟨by decide, by decide, by decide⟩, by decide, by decide⟩

end Runs
end Deliveries
end Kubeast.Webhook
