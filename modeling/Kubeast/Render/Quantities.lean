import Kubeast.Render.Contents
import Kubeast.Render.Kept
import Mathlib.Algebra.Order.Ring.Rat

/-! The quantities that a container is given: a request is at most its limit where what the container
asks for and the environment's defaults are in order. -/
namespace Kubeast.Render

section Asked

/-- What a container asks for of one resource. -/
def asked (cr : Option ContainerResources) (side : ContainerResources → Option ResourcesLimits)
    (name : ResourcesLimits → Option String) : Option String := (cr.bind side).bind name

/-- An empty text is no quantity of the container's own. -/
def own (v : Option String) : Option String := v.filter (· ≠ "")

theorem or_eq_getD (v : Option String) (default : String) : or_ v default = (own v).getD default := by
  cases v with
  | none => rfl
  | some s => by_cases h : s = "" <;> simp [or_, own, Option.filter, h]

theorem or_of_own {v : Option String} {s : String} (h : own v = some s) (default : String) :
    or_ v default = s := by rw [or_eq_getD, h, Option.getD_some]

theorem or_of_own_none {v : Option String} (h : own v = none) (default : String) :
    or_ v default = default := by rw [or_eq_getD, h, Option.getD_none]

theorem eq_some_of_own {v : Option String} {s : String} (h : own v = some s) : v = some s :=
  (Option.filter_eq_some_iff.mp h).1

end Asked

section Order
variable (quantity : String → ℚ)

/-- The container gave both, the request above the limit. -/
def Reversed (request limit : Option String) : Prop :=
  ∃ a b, own request = some a ∧ own limit = some b ∧ quantity b < quantity a

/-- The request is at most the limit, except where the container gave them in the wrong order. -/
structure Consistent (cr : Option ContainerResources) (v : Value) : Prop where
  memory : ∃ request limit, v.find ["requests", "memory"] = some (.str request) ∧
    v.find ["limits", "memory"] = some (.str limit) ∧ (quantity request ≤ quantity limit ∨
      Reversed quantity (asked cr ContainerResources.requests ResourcesLimits.memory)
        (asked cr ContainerResources.limits ResourcesLimits.memory))
  cpu : ∃ request, v.find ["requests", "cpu"] = some (.str request) ∧
    ∀ limit, v.find ["limits", "cpu"] = some (.str limit) → quantity request ≤ quantity limit ∨
      Reversed quantity (asked cr ContainerResources.requests ResourcesLimits.cpu)
        (asked cr ContainerResources.limits ResourcesLimits.cpu)

/-- Where the container gives one of a pair and the environment the other, these are in order; a
memory limit that is left out needs nothing. -/
structure Ordered (env : Env) (cr : Option ContainerResources) : Prop where
  /-- An empty memory limit is the environment's, and is not raised. -/
  emptyMemory : asked cr ContainerResources.limits ResourcesLimits.memory = some "" →
    ∀ s, own (asked cr ContainerResources.requests ResourcesLimits.memory) = some s →
      quantity s ≤ quantity env.limits.memory
  memory : ∀ l, own (asked cr ContainerResources.limits ResourcesLimits.memory) = some l →
    own (asked cr ContainerResources.requests ResourcesLimits.memory) = none →
      quantity env.requests.memory ≤ quantity l
  /-- A CPU limit is the container's, also an empty one. -/
  cpu : ∀ l, asked cr ContainerResources.limits ResourcesLimits.cpu = some l →
    own (asked cr ContainerResources.requests ResourcesLimits.cpu) = none ∨ l = "" →
      quantity (or_ (asked cr ContainerResources.requests ResourcesLimits.cpu) env.requests.cpu) ≤ quantity l

variable {quantity} {r : Renderer} {cname : String} {cr : Option ContainerResources}
  {request limit : Option String}

theorem not_reversed_of_request (h : own request = none) : ¬ Reversed quantity request limit := by
  rintro ⟨a, b, ha, -⟩
  exact nomatch h.symm.trans ha

theorem not_reversed_of_limit (h : own limit = none) : ¬ Reversed quantity request limit := by
  rintro ⟨a, b, -, hb, -⟩
  exact nomatch h.symm.trans hb

/-- A pair that the container gave is at most reversed. -/
theorem le_or_reversed {a b : String} (ha : own request = some a) (hb : own limit = some b) :
    quantity a ≤ quantity b ∨ Reversed quantity request limit :=
  (le_or_gt (quantity a) (quantity b)).imp_right fun h => ⟨a, b, ha, hb, h⟩

theorem memoryLimit_of_given (l : String) :
    (memoryLimit r cname request (some l)).value = or_ (some l) r.env.limits.memory := by
  cases request <;> rfl

/-- A default below the container's own request is raised to it. -/
theorem memoryLimit_raised {s : String} (h : Errorless (memoryLimit r cname (some s) none)) :
    ∃ req lim, r.lib.memory s = .ok req ∧ r.lib.memory r.env.limits.memory = .ok lim ∧
      (memoryLimit r cname (some s) none).value = if lim < req then s else r.env.limits.memory := by
  unfold memoryLimit at h ⊢
  dsimp only [or_] at h ⊢
  cases hreq : r.lib.memory s with
  | error e =>
    rw [hreq] at h
    exact absurd h not_errorless_fail
  | ok req =>
    rw [hreq] at h
    cases hlim : r.lib.memory r.env.limits.memory with
    | error e =>
      rw [hlim] at h
      exact absurd h not_errorless_fail
    | ok lim => exact ⟨req, lim, rfl, rfl, rfl⟩

/-- The pair of the memory quantities that are rendered. -/
theorem memoryLimit_le_iff (hexact : ∀ s n, r.lib.memory s = .ok n → quantity s = n)
    (henv : quantity r.env.requests.memory ≤ quantity r.env.limits.memory)
    (h : Errorless (memoryLimit r cname request limit)) :
    (quantity (or_ request r.env.requests.memory) ≤ quantity (memoryLimit r cname request limit).value ∨
        Reversed quantity request limit) ↔
      (limit = some "" → ∀ s, own request = some s → quantity s ≤ quantity r.env.limits.memory) ∧
      ∀ l, own limit = some l → own request = none → quantity r.env.requests.memory ≤ quantity l := by
  cases limit with
  | none =>
    refine iff_of_true (Or.inl ?_) ⟨nofun, nofun⟩
    cases request with
    | none => exact henv
    | some s =>
      obtain ⟨req, lim, hreq, hlim, hvalue⟩ := memoryLimit_raised h
      have hs := hexact s req hreq
      have hdefault := hexact _ lim hlim
      rw [hvalue, or_]
      split_ifs with hempty hraised hraised
      · rw [hs]
        rw [hdefault] at henv
        exact henv.trans (by exact_mod_cast hraised.le)
      · exact henv
      · exact le_rfl
      · rw [hs, hdefault]
        exact_mod_cast not_lt.mp hraised
  | some l =>
    rw [memoryLimit_of_given]
    cases hlimit : own (some l) with
    | none =>
      have hl : l = "" := by simpa [own] using hlimit
      rw [or_of_own_none hlimit, or_iff_left (not_reversed_of_limit hlimit)]
      cases hrequest : own request with
      | none =>
        rw [or_of_own_none hrequest]
        exact iff_of_true henv ⟨fun _ _ => nofun, nofun⟩
      | some s =>
        rw [or_of_own hrequest]
        constructor
        · intro hle
          refine ⟨fun _ s' hs' => ?_, nofun⟩
          obtain rfl := Option.some.inj hs'
          exact hle
        · exact fun hle => hle.1 (by rw [hl]) s rfl
    | some l' =>
      obtain rfl : l = l' := Option.some.inj (eq_some_of_own hlimit)
      have hl : l ≠ "" := by
        rintro rfl
        exact nomatch hlimit
      rw [or_of_own hlimit]
      cases hrequest : own request with
      | none =>
        rw [or_of_own_none hrequest, or_iff_left (not_reversed_of_request hrequest)]
        constructor
        · intro hle
          refine ⟨fun hempty => absurd (Option.some.inj hempty) hl, fun l' hl' _ => ?_⟩
          obtain rfl := Option.some.inj hl'
          exact hle
        · exact fun hle => hle.2 l rfl rfl
      | some s =>
        rw [or_of_own hrequest]
        exact iff_of_true (le_or_reversed hrequest hlimit)
          ⟨fun hempty => absurd (Option.some.inj hempty) hl, fun _ _ => nofun⟩

/-- The pair of the CPU quantities, where a limit is rendered. -/
theorem cpuLimit_le_iff (default : String) {l : String} :
    (quantity (or_ request default) ≤ quantity l ∨ Reversed quantity request (some l)) ↔
      (own request = none ∨ l = "" → quantity (or_ request default) ≤ quantity l) := by
  constructor
  · rintro (h | h) hmissing
    · exact h
    · rcases hmissing with hrequest | rfl
      · exact absurd h (not_reversed_of_request hrequest)
      · exact absurd h (not_reversed_of_limit rfl)
  · intro h
    by_cases hmissing : own request = none ∨ l = ""
    · exact Or.inl (h hmissing)
    · rw [not_or] at hmissing
      obtain ⟨s, hs⟩ := Option.ne_none_iff_exists'.mp hmissing.1
      rw [or_of_own hs]
      exact le_or_reversed hs (by simp [own, Option.filter, hmissing.2])

end Order

section Rendered
variable {quantity : String → ℚ} {r : Renderer} {cname : String} {cr : Option ContainerResources}

theorem find_limits (cpu : Option String) (memory : String) :
    (Value.map (field "cpu" (cpu.map .str) ++ [("memory", Value.str memory)])).get "memory" =
        some (Value.str memory) ∧
      (Value.map (field "cpu" (cpu.map .str) ++ [("memory", Value.str memory)])).get "cpu" = cpu.map .str := by
  cases cpu <;> exact ⟨rfl, rfl⟩

/-- The four quantities of a container. -/
theorem find_resources (r : Renderer) (cname : String) (cr : Option ContainerResources) :
    (resources r cname cr).value.find ["requests", "memory"] = some (.str (or_
      (asked cr ContainerResources.requests ResourcesLimits.memory) r.env.requests.memory)) ∧
    (resources r cname cr).value.find ["limits", "memory"] = some (.str (memoryLimit r cname
      (asked cr ContainerResources.requests ResourcesLimits.memory)
      (asked cr ContainerResources.limits ResourcesLimits.memory)).value) ∧
    (resources r cname cr).value.find ["requests", "cpu"] = some (.str (or_
      (asked cr ContainerResources.requests ResourcesLimits.cpu) r.env.requests.cpu)) ∧
    (resources r cname cr).value.find ["limits", "cpu"] =
      (asked cr ContainerResources.limits ResourcesLimits.cpu).map .str := by
  have hlimits := find_limits (asked cr ContainerResources.limits ResourcesLimits.cpu)
    (memoryLimit r cname (asked cr ContainerResources.requests ResourcesLimits.memory)
      (asked cr ContainerResources.limits ResourcesLimits.memory)).value
  refine ⟨rfl, ?_, rfl, ?_⟩
  · exact (Option.bind_some ..).trans (congrArg (Option.bind · some) hlimits.1)
  · refine (congrArg (Option.bind · some) hlimits.2).trans ?_
    cases asked cr ContainerResources.limits ResourcesLimits.cpu <;> rfl

/-- The requests that are rendered are at most the limits exactly where those of one pair that come
from the container and from the environment are in order. Only a memory limit that the container
leaves out is raised. -/
theorem resources_consistent_iff (hexact : ∀ s n, r.lib.memory s = .ok n → quantity s = n)
    (henv : quantity r.env.requests.memory ≤ quantity r.env.limits.memory)
    (h : (resources r cname cr).effects.errs = []) :
    Consistent quantity cr (resources r cname cr).value ↔ Ordered quantity r.env cr := by
  have hmemory := (errorless_bind.mp ⟨h⟩).1
  obtain ⟨hrequest, hlimit, hcpuRequest, hcpuLimit⟩ := find_resources r cname cr
  have hmem := memoryLimit_le_iff hexact henv hmemory
  constructor
  · rintro ⟨⟨a, b, ha, hb, hle⟩, ⟨c, hc, hcpu⟩⟩
    obtain rfl := Value.str.inj (Option.some.inj (hrequest.symm.trans ha))
    obtain rfl := Value.str.inj (Option.some.inj (hlimit.symm.trans hb))
    obtain rfl := Value.str.inj (Option.some.inj (hcpuRequest.symm.trans hc))
    obtain ⟨hempty, hgiven⟩ := hmem.mp hle
    refine ⟨hempty, hgiven, fun l hl => (cpuLimit_le_iff r.env.requests.cpu).mp ?_⟩
    rw [← hl]
    exact hcpu l (by rw [hcpuLimit, hl]; rfl)
  · rintro ⟨hempty, hgiven, hcpu⟩
    refine ⟨⟨_, _, hrequest, hlimit, hmem.mpr ⟨hempty, hgiven⟩⟩, ⟨_, hcpuRequest, fun l hl => ?_⟩⟩
    rw [hcpuLimit, Option.map_eq_some_iff] at hl
    obtain ⟨l', hl', hl⟩ := hl
    obtain rfl := Value.str.inj hl
    rw [hl']
    exact (cpuLimit_le_iff r.env.requests.cpu).mpr (hcpu l' hl')

end Rendered

section Runs

/-- Whole numbers of mebibytes. -/
def mebibytes (s : String) : Option ℕ :=
  match s.toList.reverse with
  | 'i' :: 'M' :: digits =>
    if digits ≠ [] ∧ digits.all Char.isDigit then
      some (digits.reverse.foldl (fun n c => 10 * n + (c.toNat - '0'.toNat)) 0 * 2 ^ 20)
    else none
  | _ => none

def mebiQuantity (s : String) : ℚ := ((mebibytes s).getD 0 : ℕ)

def mebiRenderer : Renderer :=
  smallInput.renderer { mapsLib with memory := fun s => match mebibytes s with
    | some n => .ok n
    | none => .error (.mk "invalid memory %q" [.str s] []) } "alpha"

def requestAbove : ContainerResources := ⟨none, some ⟨none, some "512Mi"⟩⟩

/-- The container's own limit is below the environment's request. -/
def limitBelow : ContainerResources := ⟨some ⟨none, some "64Mi"⟩, none⟩

theorem mebiRenderer_exact (s : String) (n : ℕ) (h : mebiRenderer.lib.memory s = .ok n) :
    mebiQuantity s = n := by
  change (match mebibytes s with
    | some n => Except.ok n
    | none => Except.error (Message.mk "invalid memory %q" [Value.str s] [])) = Except.ok n at h
  unfold mebiQuantity
  split at h
  · next m hm =>
    obtain rfl := Except.ok.inj h
    rw [hm, Option.getD_some]
  · cases h

theorem requestAbove_consistent_iff :
    Consistent mebiQuantity (some requestAbove) (resources mebiRenderer "main" (some requestAbove)).value ↔
      Ordered mebiQuantity mebiRenderer.env (some requestAbove) :=
  resources_consistent_iff mebiRenderer_exact (by decide) (by decide)

/-- Nothing is reported, and the request is 128Mi under a limit of 64Mi. -/
theorem limitBelow_inconsistent :
    mebiQuantity mebiRenderer.env.requests.memory ≤ mebiQuantity mebiRenderer.env.limits.memory ∧
    (resources mebiRenderer "main" (some limitBelow)).effects.errs = [] ∧
    ¬ Consistent mebiQuantity (some limitBelow)
      (resources mebiRenderer "main" (some limitBelow)).value := by
  refine ⟨by decide, by decide, ?_⟩
  rintro ⟨⟨a, b, ha, hb, hle⟩, -⟩
  obtain rfl : "128Mi" = a := Value.str.inj (Option.some.inj ha)
  obtain rfl : "64Mi" = b := Value.str.inj (Option.some.inj hb)
  rcases hle with hle | hreversed
  · exact absurd hle (by decide)
  · exact not_reversed_of_request rfl hreversed

end Runs
end Kubeast.Render
