import Mathlib.Algebra.Order.BigOperators.Group.Finset
import Mathlib.Algebra.BigOperators.Field
import Mathlib.Data.List.Perm.Basic
import Mathlib.Tactic

/-!
# Diffusion with restart over a weighted undirected graph

A share of every node's mass flows along its links in proportion to their weights,
the rest goes back to a restart distribution. Mass on a node without links has
nowhere to flow and restarts as a whole, so that the total stays one.
-/

namespace TinySweeper.Diffusion

variable {α K : Type*}

/-- A weighted link; parallel links and links from a node to itself are allowed. -/
structure Link (α K : Type*) where
  source : α
  target : α
  weight : K

/-- A distribution of one unit of mass over the nodes. -/
structure IsDistribution [AddCommMonoid K] [One K] [LE K] (nodes : Finset α) (mass : α → K) :
    Prop where
  nonneg : ∀ x ∈ nodes, 0 ≤ mass x
  total : ∑ x ∈ nodes, mass x = 1

section Flow

variable [DecidableEq α] [Field K] (links : List (Link α K))

/-- The weight of the links at a node. -/
def outgoing (x : α) : K :=
  (links.map fun link =>
    (if link.source = x then link.weight else 0) +
      if link.target = x then link.weight else 0).sum

/-- What arrives at a node when each node sends `share` times the weight along each link. -/
def arriving (share : α → K) (x : α) : K :=
  (links.map fun link =>
    (if link.target = x then share link.source * link.weight else 0) +
      if link.source = x then share link.target * link.weight else 0).sum

/-- What a node sends along a link of weight one; nothing without links. -/
def shareOf (mass : α → K) (x : α) : K := mass x / outgoing links x

variable [LinearOrder K]

/-- The mass on nodes without links. -/
def stranded (nodes : Finset α) (mass : α → K) : K :=
  ∑ x ∈ nodes with outgoing links x = 0, mass x

/-- One round: a share of the mass flows, the rest and what is stranded restarts. -/
def step (damping : K) (restart : α → K) (nodes : Finset α) (mass : α → K) (x : α) : K :=
  (1 - damping) * restart x +
    damping * (arriving links (shareOf links mass) x + stranded links nodes mass * restart x)

/-- At most this many rounds; they end early once a round moves less than the tolerance. -/
def run (damping tolerance : K) (restart : α → K) (nodes : Finset α) :
    (rounds : ℕ) → (mass : α → K) → α → K
  | 0, mass => mass
  | rounds + 1, mass =>
    let updated := step links damping restart nodes mass
    if ∑ x ∈ nodes, |updated x - mass x| < tolerance then updated
    else run damping tolerance restart nodes rounds updated

end Flow

variable [DecidableEq α] [Field K] {links links' : List (Link α K)}

theorem outgoing_perm (h : links.Perm links') (x : α) : outgoing links x = outgoing links' x :=
  (h.map _).sum_eq

theorem arriving_perm (h : links.Perm links') (share : α → K) (x : α) :
    arriving links share x = arriving links' share x :=
  (h.map _).sum_eq

theorem outgoing_append (before after : List (Link α K)) (x : α) :
    outgoing (before ++ after) x = outgoing before x + outgoing after x := by
  simp [outgoing]

theorem arriving_append (before after : List (Link α K)) (share : α → K) (x : α) :
    arriving (before ++ after) share x = arriving before share x + arriving after share x := by
  simp [arriving]

theorem arriving_congr {share share' : α → K}
    (h : ∀ link ∈ links, share link.source = share' link.source ∧
      share link.target = share' link.target) (x : α) :
    arriving links share x = arriving links share' x := by
  unfold arriving
  congr 1
  apply List.map_congr_left
  intro link hlink
  rw [(h link hlink).1, (h link hlink).2]

/-- The links stay within the nodes. -/
def Within (links : List (Link α K)) (nodes : Finset α) : Prop :=
  ∀ link ∈ links, link.source ∈ nodes ∧ link.target ∈ nodes

/-- What is sent arrives. -/
theorem sum_arriving {nodes : Finset α} (hlinks : Within links nodes) (share : α → K) :
    ∑ x ∈ nodes, arriving links share x = ∑ x ∈ nodes, share x * outgoing links x := by
  induction links with
  | nil => simp [arriving, outgoing]
  | cons link links ih =>
    have hhere := hlinks link List.mem_cons_self
    have hlater := ih fun other hother => hlinks other (List.mem_cons_of_mem link hother)
    have hsent : ∀ x, share x * outgoing (link :: links) x =
        ((if link.source = x then share link.source * link.weight else 0) +
          if link.target = x then share link.target * link.weight else 0) +
            share x * outgoing links x := by
      intro x
      have hterm : ∀ y, share x * (if y = x then link.weight else 0) =
          if y = x then share y * link.weight else 0 := by
        intro y
        split_ifs with h
        · rw [h]
        · rw [mul_zero]
      simp only [outgoing, List.map_cons, List.sum_cons, mul_add, hterm]
    simp only [hsent, Finset.sum_add_distrib, ← hlater]
    simp only [arriving, List.map_cons, List.sum_cons, Finset.sum_add_distrib, Finset.sum_ite_eq,
      hhere.1, hhere.2, if_true]

variable [LinearOrder K] {nodes : Finset α} {mass mass' restart restart' : α → K}
  {damping tolerance : K}

/-- What flows is what is not stranded. -/
theorem sum_arriving_add_stranded (hlinks : Within links nodes) :
    ∑ x ∈ nodes, arriving links (shareOf links mass) x + stranded links nodes mass =
      ∑ x ∈ nodes, mass x := by
  rw [sum_arriving hlinks, stranded, Finset.sum_filter, ← Finset.sum_add_distrib]
  apply Finset.sum_congr rfl
  intro x _
  rw [shareOf]
  split_ifs with h
  · rw [h, mul_zero, zero_add]
  · rw [div_mul_cancel₀ _ h, add_zero]

section Order

variable [IsStrictOrderedRing K]

theorem outgoing_nonneg (hweights : ∀ link ∈ links, 0 ≤ link.weight) (x : α) :
    0 ≤ outgoing links x := by
  apply List.sum_nonneg
  intro term hterm
  obtain ⟨link, hlink, rfl⟩ := List.mem_map.mp hterm
  have hweight := hweights link hlink
  split_ifs <;> positivity

theorem arriving_nonneg (hweights : ∀ link ∈ links, 0 ≤ link.weight)
    (hlinks : Within links nodes) {share : α → K} (hshare : ∀ x ∈ nodes, 0 ≤ share x) (x : α) :
    0 ≤ arriving links share x := by
  apply List.sum_nonneg
  intro term hterm
  obtain ⟨link, hlink, rfl⟩ := List.mem_map.mp hterm
  have hweight := hweights link hlink
  have hsource := hshare _ (hlinks link hlink).1
  have htarget := hshare _ (hlinks link hlink).2
  split_ifs <;> positivity

/-- A round keeps the mass a distribution. -/
theorem isDistribution_step (hweights : ∀ link ∈ links, 0 ≤ link.weight)
    (hlinks : Within links nodes) (hlow : 0 ≤ damping) (hhigh : damping ≤ 1)
    (hrestart : IsDistribution nodes restart) (hmass : IsDistribution nodes mass) :
    IsDistribution nodes (step links damping restart nodes mass) := by
  have hstranded : 0 ≤ stranded links nodes mass :=
    Finset.sum_nonneg fun x hx => hmass.nonneg x (Finset.mem_filter.mp hx).1
  have hshare : ∀ x ∈ nodes, 0 ≤ shareOf links mass x :=
    fun x hx => div_nonneg (hmass.nonneg x hx) (outgoing_nonneg hweights x)
  constructor
  · intro x hx
    have hrest := hrestart.nonneg x hx
    have harriving := arriving_nonneg hweights hlinks hshare x
    have hkept : 0 ≤ 1 - damping := sub_nonneg.mpr hhigh
    unfold step
    positivity
  · have hflow : ∑ x ∈ nodes, arriving links (shareOf links mass) x +
        stranded links nodes mass = ∑ x ∈ nodes, mass x := sum_arriving_add_stranded hlinks
    simp only [step, Finset.sum_add_distrib, ← Finset.mul_sum, hrestart.total, mul_one]
    rw [hflow, hmass.total]
    ring

/-- A run of any length ends in a distribution. -/
theorem isDistribution_run (hweights : ∀ link ∈ links, 0 ≤ link.weight)
    (hlinks : Within links nodes) (hlow : 0 ≤ damping) (hhigh : damping ≤ 1)
    (hrestart : IsDistribution nodes restart) (rounds : ℕ) (hmass : IsDistribution nodes mass) :
    IsDistribution nodes (run links damping tolerance restart nodes rounds mass) := by
  induction rounds generalizing mass with
  | zero => exact hmass
  | succ rounds ih =>
    have hstep := isDistribution_step hweights hlinks hlow hhigh hrestart hmass
    rw [run]
    split_ifs
    · exact hstep
    · exact ih hstep

end Order

theorem step_congr (hlinks : links.Perm links') (hwithin : Within links nodes)
    (hrestart : ∀ x ∈ nodes, restart x = restart' x) (hmass : ∀ x ∈ nodes, mass x = mass' x) :
    ∀ x ∈ nodes, step links damping restart nodes mass x =
      step links' damping restart' nodes mass' x := by
  intro x hx
  have houtgoing : outgoing links = outgoing links' := funext (outgoing_perm hlinks)
  have hstranded : stranded links nodes mass = stranded links' nodes mass' := by
    rw [stranded, stranded, houtgoing]
    exact Finset.sum_congr rfl fun y hy => hmass y (Finset.mem_filter.mp hy).1
  have harriving : arriving links (shareOf links mass) x =
      arriving links' (shareOf links' mass') x := by
    rw [← arriving_perm hlinks]
    apply arriving_congr
    intro link hlink
    rw [shareOf, shareOf, shareOf, shareOf, houtgoing, hmass _ (hwithin link hlink).1,
      hmass _ (hwithin link hlink).2]
    exact ⟨rfl, rfl⟩
  rw [step, step, hstranded, harriving, hrestart x hx]

/-- A run sees the nodes, the links up to order, and the restart on the nodes. -/
theorem run_congr (hlinks : links.Perm links') (hwithin : Within links nodes)
    (hrestart : ∀ x ∈ nodes, restart x = restart' x) (rounds : ℕ)
    (hmass : ∀ x ∈ nodes, mass x = mass' x) :
    ∀ x ∈ nodes, run links damping tolerance restart nodes rounds mass x =
      run links' damping tolerance restart' nodes rounds mass' x := by
  induction rounds generalizing mass mass' with
  | zero => exact hmass
  | succ rounds ih =>
    have hstep : ∀ x ∈ nodes, step links damping restart nodes mass x =
        step links' damping restart' nodes mass' x :=
      step_congr hlinks hwithin hrestart hmass
    have hmoved : ∑ x ∈ nodes, |step links damping restart nodes mass x - mass x| =
        ∑ x ∈ nodes, |step links' damping restart' nodes mass' x - mass' x| :=
      Finset.sum_congr rfl fun x hx => by rw [hstep x hx, hmass x hx]
    rw [run, run, hmoved]
    split_ifs
    · exact hstep
    · exact ih hstep

end TinySweeper.Diffusion
