import NekoStrategies.EventLog
import NekoStrategies.LiquidityPool
import NekoStrategies.PositionBook

/-!
# Machines that put their holders' money into a liquidity pool

A machine owns shares of a pool for its holders and reports what they bring and
draw in the pool's first token. A committed step lets one holder enter, or one
holder leave, or leaves the positions to others' moves of the pool. Whatever the
order of steps, the pool never gets shallower, and holders that trade alone draw
no more than they bring and than the other shares leave in the pool.
-/
namespace NekoStrategies.LiquidityMarket
open TransactionalRun PositionBook EventLog LiquidityPool

variable {ι : Type*} [DecidableEq ι]

/-- The pool, the positions in it and the log. -/
structure View (ι : Type*) [DecidableEq ι] where
  pool : LiquidityPool
  positions : Attribution ι
  log : List SorobanHost.Event

/-- Fair moves that add `minted` shares and at most `paidIn` of the first token,
and leave no more of the second token than there was. -/
structure Moved (p q : LiquidityPool) (minted paidIn : ℤ) : Prop where
  moves : Moves p q
  shares_eq : q.shares = p.shares + minted
  a_le : q.a ≤ p.a + paidIn
  b_le : q.b ≤ p.b

/-- Some shares of the open pool are nobody's in the machine. -/
structure Healthy (u : View ι) : Prop where
  liquid : u.pool.Open
  nonneg : u.positions.Nonneg
  locked : u.positions.total < u.pool.shares

/-- What a committed step does, for the holder it names as entering or leaving. -/
inductive Effect (entering leaving : Option ι) (u v : View ι) : Prop
  | enter (i : ι) (n : ℤ) (es : List SorobanHost.Event) : entering = some i → 0 ≤ n →
      v.log = u.log ++ es → totalDrawn es = 0 → Moved u.pool v.pool n (totalBrought es) →
      v.positions = u.positions.set i (u.positions.amount i + n) → Effect entering leaving u v
  | leave (i : ι) (n : ℤ) (es : List SorobanHost.Event) : leaving = some i → 0 ≤ n →
      n ≤ u.positions.amount i → v.log = u.log ++ es → totalBrought es = 0 →
      Moved u.pool v.pool (-n) (-totalDrawn es) →
      v.positions = u.positions.set i (u.positions.amount i - n) → Effect entering leaving u v
  | others (es : List SorobanHost.Event) : entering = none → leaving = none →
      v.log = u.log ++ es → totalBrought es = 0 → totalDrawn es = 0 → Moves u.pool v.pool →
      v.positions = u.positions → u.positions.total < v.pool.shares → Effect entering leaving u v

section Effects
variable {entering leaving : Option ι} {u v : View ι} {i : ι} {K : ι → Prop}

theorem Effect.moves (h : Effect entering leaving u v) : Moves u.pool v.pool := by
  cases h with
  | enter _ _ _ _ _ _ _ hmoved _ => exact hmoved.moves
  | leave _ _ _ _ _ _ _ _ hmoved _ => exact hmoved.moves
  | others _ _ _ _ _ _ hmoves _ _ => exact hmoves

theorem Effect.healthy (hu : Healthy u) (h : Effect entering leaving u v) : Healthy v := by
  have hlocked := hu.locked
  refine ⟨(h.moves.deepen hu.liquid).1, ?_, ?_⟩
  · cases h with
    | enter i n _ _ hn _ _ _ hbook =>
        rw [hbook]
        exact hu.nonneg.set (add_nonneg (hu.nonneg i) hn)
    | leave i n _ _ _ hle _ _ _ hbook =>
        rw [hbook]
        exact hu.nonneg.set (sub_nonneg.mpr hle)
    | others _ _ _ _ _ _ _ hbook _ =>
        rw [hbook]
        exact hu.nonneg
  · cases h with
    | enter i n _ _ _ _ _ hmoved hbook =>
        rw [hbook, Attribution.total_set, hmoved.shares_eq]
        omega
    | leave i n _ _ _ _ _ _ hmoved hbook =>
        rw [hbook, Attribution.total_set, hmoved.shares_eq]
        omega
    | others _ _ _ _ _ _ _ hbook hshares =>
        rw [hbook]
        exact hshares

theorem Effect.amount_le (h : Effect entering leaving u v) (hi : leaving ≠ some i) :
    u.positions.amount i ≤ v.positions.amount i := by
  cases h with
  | enter j n _ _ hn _ _ _ hbook =>
      rw [hbook, Attribution.amount_set]
      split_ifs with hj
      · subst hj
        omega
      · exact le_rfl
  | leave j n _ hj _ _ _ _ _ hbook =>
      rw [hbook, Attribution.amount_set_of_ne]
      rintro rfl
      exact hi hj
  | others _ _ _ _ _ _ _ hbook _ => rw [hbook]

end Effects

/-- Shares that are not those of the holders in `K`. -/
def staying (K : ι → Prop) [DecidablePred K] (u : View ι) : ℤ :=
  u.pool.shares - u.positions.sumOver K

/-- What the holders in `K` may take out in the first token. -/
def takeableBy (K : ι → Prop) [DecidablePred K] (u : View ι) : ℚ :=
  u.pool.takeable (staying K u)

section Trading
variable {entering leaving : Option ι} {u v : View ι} {K : ι → Prop} [DecidablePred K]

theorem Effect.trade (hu : Healthy u) (h : Effect entering leaving u v)
    (hnamed : ∀ i, entering = some i ∨ leaving = some i → K i)
    (hsame : entering = none → leaving = none → v.pool = u.pool) :
    ∃ es, v.log = u.log ++ es ∧ staying K v = staying K u ∧
      Trade u.pool v.pool (totalDrawn es) (totalBrought es) := by
  have hdepth := (h.moves.deepen hu.liquid).2
  cases h with
  | enter i n es hi _ hlog hdrawn hmoved hbook =>
      refine ⟨es, hlog, ?_, hdepth, hmoved.b_le, ?_⟩
      · rw [staying, staying, hbook, Attribution.sumOver_set, if_pos (hnamed i (.inl hi)),
          hmoved.shares_eq]
        ring
      · have := hmoved.a_le
        omega
  | leave i n es hi _ _ hlog hbrought hmoved hbook =>
      refine ⟨es, hlog, ?_, hdepth, hmoved.b_le, ?_⟩
      · rw [staying, staying, hbook, Attribution.sumOver_set, if_pos (hnamed i (.inr hi)),
          hmoved.shares_eq]
        ring
      · have := hmoved.a_le
        omega
  | others es he hl hlog hbrought hdrawn _ hbook _ =>
      refine ⟨es, hlog, ?_, ?_⟩
      · rw [staying, staying, hbook, hsame he hl]
      · rw [hsame he hl, hbrought, hdrawn]
        exact Trade.refl _

end Trading

variable {σ α ε : Type*}

/-- Under `C` and the machine's own invariant a committed step has such an effect. -/
def Market (step : α → σ → Except ε σ) (view : σ → View ι) (I : σ → Prop) (C : α → σ → Prop)
    (entering leaving : α → Option ι) : Prop :=
  ∀ a s t, C a s → I s → Healthy (view s) → step a s = .ok t →
    I t ∧ Effect (entering a) (leaving a) (view s) (view t)

/-- Only holders in `K` enter and leave, and nobody else moves the pool. -/
def Alone (step : α → σ → Except ε σ) (view : σ → View ι) (entering leaving : α → Option ι)
    (K : ι → Prop) (a : α) (s : σ) : Prop :=
  (∀ i, entering a = some i ∨ leaving a = some i → K i) ∧
  (entering a = none → leaving a = none → ∀ t, step a s = .ok t → (view t).pool = (view s).pool)

section Machines
variable {step : α → σ → Except ε σ} {view : σ → View ι} {I : σ → Prop} {C : α → σ → Prop}
  {entering leaving : α → Option ι} {s : σ} {as : List α} {i : ι}

theorem Market.run_healthy (h : Market step view I C entering leaving) (hI : I s)
    (hs : Healthy (view s)) (hc : Each step C s as) :
    I (run step s as) ∧ Healthy (view (run step s as)) := by
  refine run_invariant (I := fun s => I s ∧ Healthy (view s)) ?_ ⟨hI, hs⟩ hc
  intro a s t ha hu ht
  obtain ⟨hI', heffect⟩ := h a s t ha hu.1 hu.2 ht
  exact ⟨hI', heffect.healthy hu.2⟩

/-- The pool never gets shallower. -/
theorem Market.run_depth (h : Market step view I C entering leaving) (hI : I s)
    (hs : Healthy (view s)) (hc : Each step C s as) :
    (view s).pool.depth ≤ (view (run step s as)).pool.depth := by
  refine (run_invariant (I := fun t => (I t ∧ Healthy (view t)) ∧
    (view s).pool.depth ≤ (view t).pool.depth) ?_ ⟨⟨hI, hs⟩, le_rfl⟩ hc).2
  intro a t u ha ht hu
  obtain ⟨hI', heffect⟩ := h a t u ha ht.1.1 ht.1.2 hu
  refine ⟨⟨hI', heffect.healthy ht.1.2⟩, ht.2.trans ?_⟩
  exact (heffect.moves.deepen ht.1.2.liquid).2

/-- What is behind a position never falls while its holder does not leave. -/
theorem Market.run_behind (h : Market step view I C entering leaving) (hI : I s)
    (hs : Healthy (view s)) (hc : Each step C s as)
    (hspared : Each step (Spares step leaving i) s as) :
    (view s).pool.behind ((view s).positions.amount i) ≤
      (view (run step s as)).pool.behind ((view (run step s as)).positions.amount i) := by
  have hheld : (view s).positions.amount i ≤ (view (run step s as)).positions.amount i := by
    refine (run_invariant (I := fun t => (I t ∧ Healthy (view t)) ∧
      (view s).positions.amount i ≤ (view t).positions.amount i) ?_ ⟨⟨hI, hs⟩, le_rfl⟩
      (each_and.mpr ⟨hc, hspared⟩)).2
    intro a t u ha ht hu
    obtain ⟨hI', heffect⟩ := h a t u ha.1 ht.1.1 ht.1.2 hu
    refine ⟨⟨hI', heffect.healthy ht.1.2⟩, ht.2.trans ?_⟩
    exact heffect.amount_le fun hi => ha.2 hi u hu
  exact behind_mono (hs.nonneg i) hheld hs.liquid (h.run_depth hI hs hc)

variable {K : ι → Prop} [DecidablePred K]

theorem Market.run_trade (h : Market step view I C entering leaving) (hI : I s)
    (hs : Healthy (view s))
    (hc : Each step (fun a s => C a s ∧ Alone step view entering leaving K a s) s as) :
    ∃ es, (view (run step s as)).log = (view s).log ++ es ∧
      staying K (view (run step s as)) = staying K (view s) ∧
      Trade (view s).pool (view (run step s as)).pool (totalDrawn es) (totalBrought es) := by
  refine run_reports (I := fun s => I s ∧ Healthy (view s)) (L := fun s => (view s).log)
    (R := fun s es t => staying K (view t) = staying K (view s) ∧
      Trade (view s).pool (view t).pool (totalDrawn es) (totalBrought es)) ?_ ?_ ?_ ⟨hI, hs⟩ hc
  · intro s
    exact ⟨rfl, Trade.refl _⟩
  · rintro s t u es es' ⟨hstay, htrade⟩ ⟨hstay', htrade'⟩
    rw [totalDrawn_append, totalBrought_append]
    exact ⟨hstay'.trans hstay, htrade.trans htrade'⟩
  · intro a s t ha hu ht
    obtain ⟨hI', heffect⟩ := h a s t ha.1 hu.1 hu.2 ht
    exact ⟨⟨hI', heffect.healthy hu.2⟩,
      heffect.trade hu.2 ha.2.1 fun he hl => ha.2.2 he hl t ht⟩

/-- Holders that trade alone draw no more than they bring and than the other
shares leave; if no shares are theirs at the start, no more than they bring. -/
theorem Market.run_takes (h : Market step view I C entering leaving) (hI : I s)
    (hs : Healthy (view s))
    (hc : Each step (fun a s => C a s ∧ Alone step view entering leaving K a s) s as) :
    ∃ es, (view (run step s as)).log = (view s).log ++ es ∧
      (totalDrawn es + takeableBy K (view (run step s as)) : ℚ) ≤
        totalBrought es + takeableBy K (view s) ∧
      ((view s).positions.sumOver K = 0 → totalDrawn es ≤ totalBrought es) := by
  have hend := (h.run_healthy hI hs (each_and.mp hc).1).2
  obtain ⟨es, hlog, hstay, htrade⟩ := h.run_trade hI hs hc
  refine ⟨es, hlog, ?_, ?_⟩
  · rw [takeableBy, takeableBy, hstay]
    exact htrade.takes hend.liquid
  · intro hnone
    refine htrade.paid_le hs.liquid hend.liquid ?_
    have hnonneg := hend.nonneg.sumOver_nonneg (C := K)
    unfold staying at hstay
    omega

end Machines

end NekoStrategies.LiquidityMarket
