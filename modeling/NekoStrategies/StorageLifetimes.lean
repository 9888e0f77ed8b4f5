import NekoStrategies.BlendBooks
import NekoStrategies.EntryLifetime
import NekoStrategies.StrategyPositions

/-!
# How long the strategies' storage lives

Each contract has one instance entry, with its configuration, and one entry for
the position of each vault. The Blend strategy extends its instance in every entry
point, so that a call keeps it alive for another 29 days. The others extend theirs
only where they save the configuration: however much they are used, the instance
of a deployment runs out, and from then on every call waits for a restoration.
Positions are extended where they are read and written, by Blend where they are
read only.
-/
namespace NekoStrategies.StorageLifetimes
open SorobanHost EntryLifetime TransactionalRun

inductive Entry where
  | contract
  | position (vault : Address)
deriving DecidableEq, Repr

theorem contract_ne (vault : Address) : Entry.contract ≠ .position vault := nofun

def oneDayLedgers : ℕ := 17280

/-- A contract that is created at `now`. -/
def created (net : Network) (now : ℕ) : Lifetimes Entry where
  now := now
  liveUntil
    | .contract => some (now + (net.minPersistentTtl - 1))
    | .position _ => none

namespace Blend
open BlendContract

def instanceBumpAmount : ℕ := 30 * oneDayLedgers
def instanceLifetimeThreshold : ℕ := instanceBumpAmount - oneDayLedgers
def persistentBumpAmount : ℕ := 120 * oneDayLedgers
def persistentLifetimeThreshold : ℕ := persistentBumpAmount - 20 * oneDayLedgers

section Touches
variable (net : Network) (vault : Address) (l : Lifetimes Entry)

def extendInstanceTtl : Lifetimes Entry :=
  l.extend net .contract instanceLifetimeThreshold instanceBumpAmount

/-- `get_vault_shares`: an entry that does not exist is not extended. -/
def getVaultSharesTtl : Lifetimes Entry :=
  l.extend net (.position vault) persistentLifetimeThreshold persistentBumpAmount

/-- `set_vault_shares` -/
def setVaultSharesTtl : Lifetimes Entry := l.write net (.position vault)

end Touches

/-- The constructor extends nothing; all other entry points start with the instance. -/
def touch (net : Network) : Action → World → Lifetimes Entry → Lifetimes Entry
  | .call _ (.construct _ _), _, l => l
  | .call _ (.deposit _ vault), _, l =>
      setVaultSharesTtl net vault (getVaultSharesTtl net vault (extendInstanceTtl net l))
  | .call _ (.withdraw _ vault _), _, l =>
      setVaultSharesTtl net vault (getVaultSharesTtl net vault (extendInstanceTtl net l))
  | .call _ (.balance vault), _, l => getVaultSharesTtl net vault (extendInstanceTtl net l)
  | .call _ _, _, l => extendInstanceTtl net l
  | .others _, _, l => l

def footprint : Action → List Entry
  | .call _ (.deposit _ vault) => [.contract, .position vault]
  | .call _ (.withdraw _ vault _) => [.contract, .position vault]
  | .call _ (.balance vault) => [.contract, .position vault]
  | .call _ _ => [.contract]
  | .others _ => []

def usage (net : Network) : Usage World Action Entry := ⟨footprint, touch net⟩

abbrev timed (net : Network) := timedStep step (usage net)

section Calls
variable {net : Network} {t t' : Timed World Entry} {env : Env} {c : Call} {u : ℕ}
  {vault : Address}

theorem usage_lawful (net : Network) : (usage net).Lawful := by
  constructor
  · rintro (⟨env, c⟩ | tokens) w l
    · cases c <;> rfl
    · rfl
  · rintro (⟨env, c⟩ | tokens) w l
    · have hinstance : l.Kept (extendInstanceTtl net l) := Lifetimes.kept_extend
      cases c with
      | construct => exact .refl l
      | deposit amount vault =>
          exact (hinstance.trans Lifetimes.kept_extend).trans Lifetimes.kept_write
      | withdraw amount vault dest =>
          exact (hinstance.trans Lifetimes.kept_extend).trans Lifetimes.kept_write
      | balance vault => exact hinstance.trans Lifetimes.kept_extend
      | asset | harvest | setKeeper | getKeeper => exact hinstance
    · exact .refl l

theorem touch_contract (net : Network) (env : Env) (w : World) (l : Lifetimes Entry)
    (hc : ∀ asset initArgs, c ≠ .construct asset initArgs) :
    (touch net (.call env c) w l).liveUntil .contract = (l.liveUntil .contract).map
      (extendTtl net l.now instanceLifetimeThreshold instanceBumpAmount) := by
  have hinstance : (extendInstanceTtl net l).liveUntil .contract = (l.liveUntil .contract).map
      (extendTtl net l.now instanceLifetimeThreshold instanceBumpAmount) := Lifetimes.extend_self
  have hread : ∀ vault, (getVaultSharesTtl net vault (extendInstanceTtl net l)).liveUntil
      .contract = (extendInstanceTtl net l).liveUntil .contract := fun vault =>
    Lifetimes.extend_of_ne (contract_ne vault)
  cases c with
  | construct asset initArgs => exact absurd rfl (hc asset initArgs)
  | deposit amount vault =>
      exact (Lifetimes.write_of_ne (contract_ne _)).trans ((hread vault).trans hinstance)
  | withdraw amount vault dest =>
      exact (Lifetimes.write_of_ne (contract_ne _)).trans ((hread vault).trans hinstance)
  | balance vault => exact (hread vault).trans hinstance
  | asset | harvest | setKeeper | getKeeper => exact hinstance

theorem read_position (net : Network) (vault : Address) (l : Lifetimes Entry) :
    (getVaultSharesTtl net vault (extendInstanceTtl net l)).liveUntil (.position vault) =
      (l.liveUntil (.position vault)).map
        (extendTtl net l.now persistentLifetimeThreshold persistentBumpAmount) := by
  have hkept : (extendInstanceTtl net l).liveUntil (.position vault) =
      l.liveUntil (.position vault) := Lifetimes.extend_of_ne (contract_ne vault).symm
  rw [getVaultSharesTtl, Lifetimes.extend_self, hkept]
  rfl

/-- A position that exists is extended by every call about it. -/
theorem touch_position (net : Network) (w : World) {l : Lifetimes Entry}
    (hmem : .position vault ∈ footprint (.call env c))
    (hu : l.liveUntil (.position vault) = some u) :
    (touch net (.call env c) w l).liveUntil (.position vault) =
      some (extendTtl net l.now persistentLifetimeThreshold persistentBumpAmount u) := by
  have hread := read_position net vault l
  rw [hu, Option.map_some] at hread
  cases c with
  | deposit amount v =>
      obtain rfl : vault = v := by simpa [footprint] using hmem
      simp only [touch, setVaultSharesTtl, Lifetimes.write_self, Lifetimes.written, hread,
        Option.getD_some]
  | withdraw amount v dest =>
      obtain rfl : vault = v := by simpa [footprint] using hmem
      simp only [touch, setVaultSharesTtl, Lifetimes.write_self, Lifetimes.written, hread,
        Option.getD_some]
  | balance v =>
      obtain rfl : vault = v := by simpa [footprint] using hmem
      exact hread
  | construct | asset | harvest | setKeeper | getKeeper => simp [footprint] at hmem

/-- A new position is written and not extended. -/
theorem touch_new (net : Network) (env : Env) (w : World) (amount : ℤ) {l : Lifetimes Entry}
    (hnew : l.liveUntil (.position vault) = none) :
    (touch net (.call env (.deposit amount vault)) w l).liveUntil (.position vault) =
      some (l.now + (net.minPersistentTtl - 1)) := by
  have hread := read_position net vault l
  rw [hnew, Option.map_none] at hread
  simp only [touch, setVaultSharesTtl, Lifetimes.write_self, Lifetimes.written, hread,
    Option.getD_none]
  rfl

end Calls

/-- A committed call keeps the instance alive for 29 days and every position it
is about for 100 days, as far as the network allows, whatever happens meanwhile;
only the position that a first deposit creates has what the network gives it. -/
theorem calls_keep_alive (net : Network) (t t' : Timed World Entry) (env : Env) (c : Call) (u : ℕ)
    (hcontract : t.life.liveUntil .contract = some u)
    (hc : ∀ asset initArgs, c ≠ .construct asset initArgs)
    (h : timed net (.act (.call env c)) t = .ok t') :
    LivesFor (timed net) t' .contract
        (min instanceLifetimeThreshold (net.maxEntryTtl - 1)) ∧
      ∀ vault, .position vault ∈ footprint (.call env c) →
        (t.life.liveUntil (.position vault) ≠ none → LivesFor (timed net) t' (.position vault)
          (min persistentLifetimeThreshold (net.maxEntryTtl - 1))) ∧
        ∀ amount, c = .deposit amount vault → t.life.liveUntil (.position vault) = none →
          t'.life.liveUntil (.position vault) = some (t.life.now + (net.minPersistentTtl - 1)) ∧
          LivesFor (timed net) t' (.position vault) (net.minPersistentTtl - 1) := by
  have hlaw := usage_lawful net
  constructor
  · have htouch := touch_contract net env t.state t.life hc
    rw [hcontract, Option.map_some] at htouch
    exact livesFor_of_act hlaw h htouch (threshold_le_extendTtl (by decide))
  · intro vault hmem
    constructor
    · intro hsome
      obtain ⟨v, hv⟩ := Option.ne_none_iff_exists'.mp hsome
      exact livesFor_of_act hlaw h (touch_position net t.state hmem hv)
        (threshold_le_extendTtl (by decide))
    · rintro amount rfl hnone
      have hnew := touch_new net env t.state amount hnone
      refine ⟨?_, livesFor_of_act hlaw h hnew le_rfl⟩
      obtain ⟨_, s, _, rfl⟩ := act_eq_ok.mp h
      exact hnew

def sampleNetwork : Network := ⟨4096, 3110400⟩

/-- The deployment in ledger 100, and the deposits of account 1. -/
def sampleStart : Timed World Entry := ⟨BlendBooks.sampleWorld, created sampleNetwork 100⟩

def sampleDeposit : Action :=
  .call (BlendBooks.sampleEnv (.account 1)) (.deposit 5500 (.account 1))

/-- The first deposit keeps the instance for 29 days and its own position for 4095
ledgers, and the second one keeps the position for 100 days. -/
theorem calls_keep_alive_sample : ∃ t' t'',
    timed sampleNetwork (.act sampleDeposit) sampleStart = .ok t' ∧
    (TransactionalRun.run (timed sampleNetwork) t' [.elapse 501120]).life.Live .contract ∧
    (TransactionalRun.run (timed sampleNetwork) t' [.elapse 4095]).life.Live
      (.position (.account 1)) ∧
    timed sampleNetwork (.act sampleDeposit) t' = .ok t'' ∧
    (TransactionalRun.run (timed sampleNetwork) t'' [.elapse 1728000]).life.Live
      (.position (.account 1)) := by
  obtain ⟨t', t'', h, h'⟩ : ∃ t' t'', timed sampleNetwork (.act sampleDeposit) sampleStart =
      .ok t' ∧ timed sampleNetwork (.act sampleDeposit) t' = .ok t'' := ⟨_, _, rfl, rfl⟩
  obtain ⟨hcontract, hfirst⟩ := calls_keep_alive sampleNetwork _ t' _ _ 4195 rfl (by simp) h
  obtain ⟨hnew, hposition⟩ := (hfirst (.account 1) (by decide)).2 5500 rfl rfl
  obtain ⟨u, hu⟩ : ∃ u, t'.life.liveUntil .contract = some u := by
    obtain ⟨_, _, _, rfl⟩ := act_eq_ok.mp h
    exact ⟨_, rfl⟩
  obtain ⟨_, hsecond⟩ := calls_keep_alive sampleNetwork t' t'' _ _ u hu (by simp) h'
  refine ⟨t', t'', h, hcontract _ (by decide), hposition _ (by decide), h', ?_⟩
  refine (hsecond (.account 1) (by decide)).1 ?_ _ (by decide)
  rw [hnew]
  exact Option.some_ne_none _

end Blend

/-- 30 days -/
def instanceTtl : ℕ := oneDayLedgers * 30
def instanceBump : ℕ := oneDayLedgers * 31
/-- A year -/
def persistentTtl : ℕ := oneDayLedgers * 365
def persistentBump : ℕ := oneDayLedgers * 366

section Storage
variable (net : Network) (vault : Address) (held : ℤ) (l : Lifetimes Entry)

/-- `save_config` -/
def saveConfigTtl : Lifetimes Entry := l.extend net .contract instanceTtl instanceBump

/-- Read a position, which is extended if something is held. -/
def readTtl : Lifetimes Entry :=
  if 0 < held then l.extend net (.position vault) persistentTtl persistentBump else l

def writeTtl : Lifetimes Entry :=
  (l.write net (.position vault)).extend net (.position vault) persistentTtl persistentBump

end Storage

section Rules
variable {net : Network} {vault : Address} {held : ℤ} {l : Lifetimes Entry} {now u : ℕ}

theorem now_readTtl : (readTtl net vault held l).now = l.now := by
  unfold readTtl
  split_ifs <;> rfl

theorem kept_readTtl : l.Kept (readTtl net vault held l) := by
  unfold readTtl
  split_ifs
  · exact Lifetimes.kept_extend
  · exact .refl l

theorem kept_writeTtl : l.Kept (writeTtl net vault l) :=
  Lifetimes.kept_write.trans Lifetimes.kept_extend

theorem readTtl_contract :
    (readTtl net vault held l).liveUntil .contract = l.liveUntil .contract := by
  unfold readTtl
  split_ifs
  · exact Lifetimes.extend_of_ne (contract_ne vault)
  · rfl

theorem writeTtl_contract : (writeTtl net vault l).liveUntil .contract = l.liveUntil .contract :=
  (Lifetimes.extend_of_ne (contract_ne vault)).trans (Lifetimes.write_of_ne (contract_ne vault))

/-- A position that is written has a year, as far as the network allows. -/
theorem writeTtl_position : ∃ v, (writeTtl net vault l).liveUntil (.position vault) = some v ∧
    l.now + min persistentTtl (net.maxEntryTtl - 1) ≤ v := by
  have hwritten : (writeTtl net vault l).liveUntil (.position vault) = some
      (extendTtl net l.now persistentTtl persistentBump (l.written net (.position vault))) := by
    rw [writeTtl, Lifetimes.extend_self, Lifetimes.write_self]
    rfl
  exact ⟨_, hwritten, threshold_le_extendTtl (by decide)⟩

/-- A position that is read has a year too, if something is held. -/
theorem readTtl_position (hheld : 0 < held) (hu : l.liveUntil (.position vault) = some u) :
    ∃ v, (readTtl net vault held l).liveUntil (.position vault) = some v ∧
      l.now + min persistentTtl (net.maxEntryTtl - 1) ≤ v := by
  have hread : (readTtl net vault held l).liveUntil (.position vault) =
      some (extendTtl net l.now persistentTtl persistentBump u) := by
    rw [readTtl, if_pos hheld, Lifetimes.extend_self, hu, Option.map_some]
  exact ⟨_, hread, threshold_le_extendTtl (by decide)⟩

/-- The instance of a deployment lives for what the network gives it or 31 days. -/
theorem saveConfigTtl_created (net : Network) (now : ℕ) :
    ∃ v, (saveConfigTtl net (created net now)).liveUntil .contract = some v ∧
      v ≤ now + max (net.minPersistentTtl - 1) instanceBump :=
  ⟨_, Lifetimes.extend_self, extendTtl_new⟩

end Rules

/-- What an action does with the storage of such a contract: it saves the
configuration, loads it, and reads or moves a position besides. -/
inductive StorageUse where
  | save
  | load
  | read (vault : Address)
  | move (vault : Address)
  | outside
deriving DecidableEq, Repr

namespace StorageUse

/-- Reading a position again after writing it extends nothing more. -/
def touch (net : Network) (held : Address → ℤ) : StorageUse → Lifetimes Entry → Lifetimes Entry
  | save, l => saveConfigTtl net l
  | read vault, l => readTtl net vault (held vault) l
  | move vault, l => writeTtl net vault (readTtl net vault (held vault) l)
  | load, l => l
  | outside, l => l

def footprint : StorageUse → List Entry
  | save => [.contract]
  | load => [.contract]
  | read vault => [.contract, .position vault]
  | move vault => [.contract, .position vault]
  | outside => []

variable {σ α : Type*} {net : Network} {step : α → σ → Outcome σ} {use : α → StorageUse}
  {held : σ → Address → ℤ}

def usage (net : Network) (use : α → StorageUse) (held : σ → Address → ℤ) : Usage σ α Entry where
  footprint a := (use a).footprint
  touch a s l := (use a).touch net (held s) l

theorem usage_lawful : (usage net use held).Lawful := by
  constructor
  · intro a s l
    simp only [usage]
    cases use a with
    | read | move => exact now_readTtl
    | save | load | outside => rfl
  · intro a s l
    simp only [usage]
    cases use a with
    | save => exact Lifetimes.kept_extend
    | read => exact kept_readTtl
    | move => exact kept_readTtl.trans kept_writeTtl
    | load | outside => exact .refl l

/-- Only saving the configuration extends the instance. -/
theorem touch_contract {u : StorageUse} {h : Address → ℤ} {l : Lifetimes Entry} (hu : u ≠ save) :
    (u.touch net h l).liveUntil .contract = l.liveUntil .contract := by
  cases u with
  | save => exact absurd rfl hu
  | read vault => exact readTtl_contract
  | move vault => exact writeTtl_contract.trans readTtl_contract
  | load | outside => rfl

theorem contract_mem {u : StorageUse} (hu : u ≠ outside) : .contract ∈ u.footprint := by
  cases u with
  | outside => exact absurd rfl hu
  | _ => simp [footprint]

end StorageUse

section Contracts
variable {σ α : Type*} (net : Network) (step : α → σ → Outcome σ) (use : α → StorageUse)
  (held : σ → Address → ℤ)

abbrev timed := timedStep step (StorageUse.usage net use held)

/-- Whatever is done with a position, or read of one in which something is held,
keeps it for a year, as far as the network allows. -/
def PositionsLast : Prop :=
  ∀ t t' a vault, timed net step use held (.act a) t = .ok t' →
    (use a = .move vault ∨ use a = .read vault ∧ 0 < held t.state vault ∧
      t.life.liveUntil (.position vault) ≠ none) →
    LivesFor (timed net step use held) t' (.position vault)
      (min persistentTtl (net.maxEntryTtl - 1))

/-- But no use of a deployment keeps the instance: after 31 days, or more where the
network gives it more, every call is refused, if nobody from outside extends it. -/
def InstanceRunsOut (start : σ → Prop) (C : α → Prop) : Prop :=
  ∀ now w acts a, start w →
    (∀ b ∈ acts, (∀ a, b = .act a → C a) ∧ ∀ n, b ≠ .prolong .contract n) →
    max (net.minPersistentTtl - 1) instanceBump < elapsed acts → use a ≠ .outside →
    timed net step use held (.act a)
      (run (timed net step use held) ⟨w, saveConfigTtl net (created net now)⟩ acts) =
        .error .archived

variable {net step use held}

theorem positionsLast : PositionsLast net step use held := by
  intro t t' a vault h huse
  obtain ⟨v, hv, hleft⟩ : ∃ v, ((StorageUse.usage net use held).touch a t.state t.life).liveUntil
      (.position vault) = some v ∧
      t.life.now + min persistentTtl (net.maxEntryTtl - 1) ≤ v := by
    simp only [StorageUse.usage]
    rcases huse with hmove | ⟨hread, hheld, hsome⟩
    · rw [hmove]
      obtain ⟨v, hv, hleft⟩ :=
        writeTtl_position (l := readTtl net vault (held t.state vault) t.life)
      rw [now_readTtl] at hleft
      exact ⟨v, hv, hleft⟩
    · obtain ⟨u, hu⟩ := Option.ne_none_iff_exists'.mp hsome
      rw [hread]
      exact readTtl_position hheld hu
  exact livesFor_of_act StorageUse.usage_lawful h hv hleft

theorem instanceRunsOut {start I : σ → Prop} {C : α → Prop} (hstart : ∀ w, start w → I w)
    (hstep : ∀ a s s', C a → I s → step a s = .ok s' → use a ≠ .save ∧ I s') :
    InstanceRunsOut net step use held start C := by
  intro now w acts a hw hacts hlong huse
  obtain ⟨v, hv, hle⟩ := saveConfigTtl_created net now
  refine run_archived (I := I) (C := C) StorageUse.usage_lawful
    (fun a s s' ha hs h => (hstep a s s' ha hs h).2)
    (fun a s s' l ha hs h => StorageUse.touch_contract (hstep a s s' ha hs h).1)
    (hstart w hw) hacts hv ?_ (StorageUse.contract_mem huse)
  change v < now + elapsed acts
  omega

end Contracts

namespace Neko
open NekoContract

/-- `get_b_tokens` and `set_b_tokens` -/
def storageUse : Action → StorageUse
  | .call _ (.construct _ _) => .save
  | .call _ (.deposit _ vault) => .move vault
  | .call _ (.withdraw _ vault _) => .move vault
  | .call _ (.balance vault) => .read vault
  | .call _ .asset => .load
  | .call _ (.harvest _ _) => .load
  | .transfer _ _ _ _ => .outside
  | .others _ => .outside

def held (w : World) (vault : Address) : ℤ := getBTokens w.storage vault

/-- A configured strategy saves nothing again. -/
theorem step_configured {a : Action} {w w' : World} (hw : w.storage.config ≠ none)
    (h : step a w = .ok w') : storageUse a ≠ .save ∧ w'.storage.config ≠ none := by
  obtain ⟨config, hconfig⟩ := Option.ne_none_iff_exists'.mp hw
  constructor
  · rcases a with ⟨env, c⟩ | _ | _
    · cases c with
      | construct asset initArgs => exact absurd (construct_ok h).1 hw
      | _ => exact nofun
    · exact nofun
    · exact nofun
  · rw [(step_config hconfig h).1]
    exact nofun

theorem Deployed.configured {w : World} (h : Deployed w) : w.storage.config ≠ none := by
  obtain ⟨_, _, _, _, hc⟩ := h
  obtain ⟨_, _, rfl⟩ := construct_ok hc
  exact nofun

end Neko

namespace Soroswap
open SoroswapContract

/-- `get_lp_tokens` and `set_lp_tokens` -/
def storageUse : Action → StorageUse
  | .call _ (.construct _ _) => .save
  | .call _ (.deposit _ vault) => .move vault
  | .call _ (.withdraw _ vault _) => .move vault
  | .call _ (.balance vault) => .read vault
  | .call _ (.harvest sender _) => .read sender
  | .call _ .asset => .load
  | .transfer _ _ _ _ => .outside
  | .others _ _ _ _ => .outside

def held (w : SoroswapPool.World) (vault : Address) : ℤ := getLpTokens w.storage vault

theorem step_configured {a : Action} {w w' : SoroswapPool.World} (hw : w.storage.config ≠ none)
    (h : step a w = .ok w') : storageUse a ≠ .save ∧ w'.storage.config ≠ none := by
  obtain ⟨config, hconfig⟩ := Option.ne_none_iff_exists'.mp hw
  constructor
  · rcases a with ⟨env, c⟩ | _ | _
    · cases c with
      | construct asset initArgs => exact absurd (construct_ok h).1 hw
      | _ => simp [storageUse]
    · simp [storageUse]
    · simp [storageUse]
  · rw [(StrategyPositions.Soroswap.step_config hconfig h).1]
    exact Option.some_ne_none config

theorem Deployed.configured {w : SoroswapPool.World} (h : Deployed w) :
    w.storage.config ≠ none := by
  obtain ⟨_, _, _, _, _, hc⟩ := h
  obtain ⟨_, config, rfl⟩ := construct_ok hc
  exact Option.some_ne_none config

end Soroswap

namespace Aquarius
open AquariusContract

/-- `get_shares` and `set_shares`; an update of the slippage saves as well. -/
def storageUse : Action → StorageUse
  | .call _ (.construct _ _) => .save
  | .call _ (.updateSlippage _ _) => .save
  | .call _ (.deposit _ vault) => .move vault
  | .call _ (.withdraw _ vault _) => .move vault
  | .call _ (.balance vault) => .read vault
  | .call _ (.harvest sender _) => .read sender
  | .call _ (.sweep _ _ _ _) => .load
  | .call _ .asset => .load
  | .transfer _ _ _ _ => .outside
  | .others _ _ _ => .outside

def held (w : AquariusPool.World) (vault : Address) : ℤ := getShares w.storage vault

/-- No update of the slippage. -/
def KeepsSlippage (a : Action) : Prop := ∀ env admin bps, a ≠ .call env (.updateSlippage admin bps)

theorem step_configured {a : Action} {w w' : AquariusPool.World} (ha : KeepsSlippage a)
    (hw : w.storage.config ≠ none) (h : step a w = .ok w') :
    storageUse a ≠ .save ∧ w'.storage.config ≠ none := by
  obtain ⟨config, hconfig⟩ := Option.ne_none_iff_exists'.mp hw
  constructor
  · rcases a with ⟨env, c⟩ | _ | _
    · cases c with
      | construct asset initArgs => exact absurd (AquariusCalls.construct_ok h).1 hw
      | updateSlippage admin bps => exact absurd rfl (ha env admin bps)
      | _ => exact nofun
    · exact nofun
    · exact nofun
  · obtain ⟨_, hconfig', _⟩ := StrategyPositions.Aquarius.step_config hconfig h
    rw [hconfig']
    exact nofun

theorem Deployed.configured {w : AquariusPool.World} (h : Deployed w) :
    w.storage.config ≠ none := by
  obtain ⟨_, _, _, _, hc⟩ := h
  obtain ⟨_, _, _, _, _, _, rfl⟩ := AquariusCalls.construct_ok hc
  exact nofun

end Aquarius

/-- In all three contracts the positions outlive the instance: using them keeps them
for a year, and keeps the instance not at all. -/
theorem positions_outlive_instance (net : Network) :
    (PositionsLast net NekoContract.step Neko.storageUse Neko.held ∧
      InstanceRunsOut net NekoContract.step Neko.storageUse Neko.held NekoContract.Deployed
        fun _ => True) ∧
    (PositionsLast net SoroswapContract.step Soroswap.storageUse Soroswap.held ∧
      InstanceRunsOut net SoroswapContract.step Soroswap.storageUse Soroswap.held
        SoroswapContract.Deployed fun _ => True) ∧
    (PositionsLast net AquariusContract.step Aquarius.storageUse Aquarius.held ∧
      InstanceRunsOut net AquariusContract.step Aquarius.storageUse Aquarius.held
        AquariusContract.Deployed Aquarius.KeepsSlippage) := by
  refine ⟨⟨positionsLast, ?_⟩, ⟨positionsLast, ?_⟩, ⟨positionsLast, ?_⟩⟩
  · exact instanceRunsOut (fun w => Neko.Deployed.configured)
      fun _ _ _ _ hs h => Neko.step_configured hs h
  · exact instanceRunsOut (fun w => Soroswap.Deployed.configured)
      fun _ _ _ _ hs h => Soroswap.step_configured hs h
  · exact instanceRunsOut (fun w => Aquarius.Deployed.configured)
      fun _ _ _ ha hs h => Aquarius.step_configured ha hs h

/-- 31 days after a vault's deposit in a new deployment its position is alive, and a
call is refused. -/
def Outlives {σ α : Type} (step : α → σ → Outcome σ) (use : α → StorageUse)
    (held : σ → Address → ℤ) (w : σ) (pays deposits calls : α) : Prop :=
  let start : Timed σ Entry :=
    ⟨w, saveConfigTtl Blend.sampleNetwork (created Blend.sampleNetwork 100)⟩
  ∃ t t', timed Blend.sampleNetwork step use held (.act pays) start = .ok t ∧
    timed Blend.sampleNetwork step use held (.act deposits) t = .ok t' ∧
    (run (timed Blend.sampleNetwork step use held) t' [.elapse 535681]).life.Live
      (.position (.account 1)) ∧
    timed Blend.sampleNetwork step use held (.act calls)
      (run (timed Blend.sampleNetwork step use held) start
        [.act pays, .act deposits, .elapse 535681]) = .error .archived

theorem outlives_of {σ α : Type} {step : α → σ → Outcome σ} {use : α → StorageUse}
    {held : σ → Address → ℤ} {w : σ} {pays deposits calls : α} {t t' : Timed σ Entry}
    (hlast : PositionsLast Blend.sampleNetwork step use held)
    (huse : use deposits = .move (.account 1))
    (hpays : timed Blend.sampleNetwork step use held (.act pays)
      ⟨w, saveConfigTtl Blend.sampleNetwork (created Blend.sampleNetwork 100)⟩ = .ok t)
    (hdeposits : timed Blend.sampleNetwork step use held (.act deposits) t = .ok t')
    (hout : timed Blend.sampleNetwork step use held (.act calls)
      (run (timed Blend.sampleNetwork step use held)
        ⟨w, saveConfigTtl Blend.sampleNetwork (created Blend.sampleNetwork 100)⟩
        [.act pays, .act deposits, .elapse 535681]) = .error .archived) :
    Outlives step use held w pays deposits calls :=
  ⟨t, t', hpays, hdeposits,
    hlast t t' deposits (.account 1) hdeposits (.inl huse) _ (show 535681 ≤
      min persistentTtl (Blend.sampleNetwork.maxEntryTtl - 1) by decide), hout⟩

theorem positions_outlive_instance_sample :
    Outlives NekoContract.step Neko.storageUse Neko.held StrategyPositions.Neko.sampleWorld
      (.transfer StrategyPositions.Neko.sampleAsset (.account 1) (.contract 0) 2000)
      (.call (StrategyPositions.Neko.sampleEnv (.account 1)) (.deposit 2000 (.account 1)))
      (.call (StrategyPositions.Neko.sampleEnv (.account 1)) (.balance (.account 1))) ∧
    Outlives SoroswapContract.step Soroswap.storageUse Soroswap.held
      StrategyPositions.Soroswap.sampleWorld
      (.transfer StrategyPositions.Soroswap.sampleAsset (.account 1) (.contract 0) 2000)
      (.call (StrategyPositions.Soroswap.sampleEnv (.account 1)) (.deposit 2000 (.account 1)))
      (.call (StrategyPositions.Soroswap.sampleEnv (.account 1)) (.balance (.account 1))) ∧
    Outlives AquariusContract.step Aquarius.storageUse Aquarius.held
      StrategyPositions.Aquarius.sampleWorld
      (.transfer StrategyPositions.Aquarius.sampleAsset (.account 1) (.contract 0) 2000)
      (.call (StrategyPositions.Aquarius.sampleEnv (.account 1)) (.deposit 2000 (.account 1)))
      (.call (StrategyPositions.Aquarius.sampleEnv (.account 1)) (.balance (.account 1))) := by
  obtain ⟨⟨hneko, hneko'⟩, ⟨hsoroswap, hsoroswap'⟩, ⟨haquarius, haquarius'⟩⟩ :=
    positions_outlive_instance Blend.sampleNetwork
  refine ⟨outlives_of hneko rfl rfl rfl ?_, outlives_of hsoroswap rfl rfl rfl ?_,
    outlives_of haquarius rfl rfl rfl ?_⟩
  · refine hneko' 100 _ _ _ StrategyPositions.Neko.sampleWorld_deployed ?_ (by decide) nofun
    simp
  · refine hsoroswap' 100 _ _ _ StrategyPositions.Soroswap.sampleWorld_deployed ?_ (by decide)
      nofun
    simp
  · refine haquarius' 100 _ _ _ StrategyPositions.Aquarius.sampleWorld_deployed ?_ (by decide)
      nofun
    simp [Aquarius.KeepsSlippage]

end NekoStrategies.StorageLifetimes
