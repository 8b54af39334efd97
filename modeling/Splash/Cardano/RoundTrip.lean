import Splash.Cardano.PoolLedger

/-!
# Writing and reading pools

A pool that was read from an output is changed and written onto what does not change of the output.
What is read back is the same pool when no token is written twice with different amounts, the data
is written where it is read, and the reader still admits the pool.

* `exists_written_iff` — when what is written is read back, for every kind with liquidity tokens;
  the `readBack_iff` of each kind is an instance.
-/

namespace Splash.Cardano

open Lib LiquidityBook PlutusData ImmutablePoolUtxo FeeSwitchPoolConfig Option Exec Function

/-! ## Values -/

/-- What is written for an asset; the native one is not among the tokens. -/
def assetWrites : AssetClass → ℕ → List (Token × ℕ)
  | .native, _ => []
  | .token t, amount => [(t, amount)]

def poolWrites (assetX assetY : AssetClass) (reservesX reservesY : ℕ) (tokens : List (Token × ℕ)) :
    List (Token × ℕ) :=
  assetWrites assetX reservesX ++ assetWrites assetY reservesY ++ tokens

/-- Lovelace of a written value. -/
def poolCoin (assetX assetY : AssetClass) (reservesX reservesY coin : ℕ) : ℕ :=
  if assetX.isNative then reservesX else if assetY.isNative then reservesY else coin

variable {out : TransactionOutput} {ctx : PoolContext} {x y : ℕ} {value : Value} {pd : PlutusData}

section Values

variable {assetX assetY : AssetClass} {reservesX reservesY coin : ℕ} {tokens : List (Token × ℕ)}

theorem poolValue_eq_ok :
    poolValue assetX assetY reservesX reservesY coin tokens = .ok value ↔
      ¬ (assetX.isNative ∧ assetY.isNative) ∧
      value = ⟨poolCoin assetX assetY reservesX reservesY coin,
        writeTokens (poolWrites assetX assetY reservesX reservesY tokens)⟩ := by
  cases assetX <;> cases assetY <;>
    simp [poolValue, poolCoin, poolWrites, assetWrites, AssetClass.isNative, unwrapToken,
      AssetClass.intoToken, Exec.expect, Bind.bind, Except.bind, eq_comm (b := value)]

/-- The reserves are found in a written value, with the tokens before the last one, exactly when no
token is written twice with different amounts. -/
theorem found_iff {last : Token × ℕ}
    (h : poolValue assetX assetY reservesX reservesY coin (tokens ++ [last]) = .ok value) :
    (value.amountOf assetX = some reservesX ∧ value.amountOf assetY = some reservesY ∧
      ∀ w ∈ tokens, value.multiasset w.1 = some w.2) ↔
    Coherent (poolWrites assetX assetY reservesX reservesY (tokens ++ [last])) := by
  obtain ⟨hnative, rfl⟩ := poolValue_eq_ok.1 h
  rw [← writeTokens_eq_some_iff]
  -- the last write is always found
  have hlast : writeTokens (poolWrites assetX assetY reservesX reservesY (tokens ++ [last])) last.1 =
      some last.2 := by
    rw [poolWrites, ← List.append_assoc, writeTokens_append, update_self]
  generalize hw : writeTokens (poolWrites assetX assetY reservesX reservesY (tokens ++ [last])) = w
    at hlast ⊢
  cases assetX <;> cases assetY <;>
    simp_all [poolWrites, assetWrites, Value.amountOf, poolCoin, AssetClass.isNative, or_imp,
      forall_and]

end Values

/-- A pool that gives out liquidity tokens can be written, and its reserves are found again. -/
def LqWritable (assetX assetY assetLq : AssetClass) (id : Token) (r : AbsolutePoolReserves) : Prop :=
  ¬ (assetX.isNative ∧ assetY.isNative) ∧ ∃ lq, assetLq = .token lq ∧
    Coherent (poolWrites assetX assetY r.reservesX r.reservesY
      [(lq, wrapSub maxLqCap r.reservesLq), (id, 1)])

section LqValues

variable {assetX assetY assetLq : AssetClass} {id : Token} {r : AbsolutePoolReserves} {coin : ℕ}

theorem heldReserves_eq_some :
    heldReserves value assetX assetY assetLq = some r ↔
      value.amountOf assetX = some r.reservesX ∧ value.amountOf assetY = some r.reservesY ∧
      ∃ neg, value.amountOf assetLq = some neg ∧ wrapSub maxLqCap neg = r.reservesLq := by
  simp only [heldReserves, bind_eq_bind, bind_eq_some_iff, pure_def,
    Option.some.injEq]
  constructor
  · rintro ⟨neg, hneg, x, hx, y, hy, rfl⟩
    exact ⟨hx, hy, neg, hneg, rfl⟩
  · rintro ⟨hx, hy, neg, hneg, hlq⟩
    exact ⟨neg, hneg, _, hx, _, hy, by rw [hlq]⟩

/-- The liquidity is found again exactly when the amount that was written for it is. -/
theorem exists_lq_iff {lq : Token} (hr : r.reservesLq ≤ u64Max)
    (h : poolValue assetX assetY r.reservesX r.reservesY coin
      [(lq, wrapSub maxLqCap r.reservesLq), (id, 1)] = .ok value) :
    (∃ neg, value.multiasset lq = some neg ∧ wrapSub maxLqCap neg = r.reservesLq) ↔
      value.multiasset lq = some (wrapSub maxLqCap r.reservesLq) := by
  constructor
  · rintro ⟨neg, hneg, hlq⟩
    obtain ⟨-, rfl⟩ := poolValue_eq_ok.1 h
    -- it was written for the liquidity or, afterwards, for the identifier
    have hsmall : neg ≤ u64Max := by
      have hsplit : poolWrites assetX assetY r.reservesX r.reservesY
          [(lq, wrapSub maxLqCap r.reservesLq), (id, 1)] =
          (assetWrites assetX r.reservesX ++ assetWrites assetY r.reservesY ++
            [(lq, wrapSub maxLqCap r.reservesLq)]) ++ [(id, 1)] := by
        simp [poolWrites]
      simp only [hsplit, writeTokens_append] at hneg
      by_cases heq : lq = id
      · rw [heq, update_self] at hneg
        cases hneg
        decide
      · rw [update_of_ne heq, update_self] at hneg
        cases hneg
        exact wrapSub_le _ _
    rw [hneg, ← hlq, wrapSub_wrapSub hsmall]
  · intro hfound
    exact ⟨_, hfound, wrapSub_wrapSub hr⟩

theorem exists_held_iff (hr : r.reservesLq ≤ u64Max) :
    (∃ value, lqPoolValue assetX assetY assetLq id r coin = .ok value ∧
      heldReserves value assetX assetY assetLq = some r) ↔
    LqWritable assetX assetY assetLq id r := by
  cases assetLq with
  | native =>
    constructor
    · rintro ⟨value, h, -⟩
      obtain ⟨lq, hlq, -⟩ := bind_eq_ok.1 h
      cases hlq
    · rintro ⟨-, lq, hlq, -⟩
      cases hlq
  | token lq =>
    have hvalue : lqPoolValue assetX assetY (.token lq) id r coin =
        poolValue assetX assetY r.reservesX r.reservesY coin
          [(lq, wrapSub maxLqCap r.reservesLq), (id, 1)] := rfl
    rw [hvalue]
    -- the identifier is written last
    have hfound : ∀ {value : Value}, poolValue assetX assetY r.reservesX r.reservesY coin
        ([(lq, wrapSub maxLqCap r.reservesLq)] ++ [(id, 1)]) = .ok value → _ := found_iff
    constructor
    · rintro ⟨value, h, hheld⟩
      obtain ⟨hx, hy, hlq⟩ := heldReserves_eq_some.1 hheld
      have hlq := (exists_lq_iff hr h).1 hlq
      refine ⟨(poolValue_eq_ok.1 h).1, lq, rfl, (hfound h).1 ⟨hx, hy, ?_⟩⟩
      simpa using hlq
    · rintro ⟨hnative, lq', hlq', hcoherent⟩
      cases hlq'
      obtain ⟨value, h⟩ : ∃ value, poolValue assetX assetY r.reservesX r.reservesY coin
          [(lq, wrapSub maxLqCap r.reservesLq), (id, 1)] = .ok value :=
        ⟨_, poolValue_eq_ok.2 ⟨hnative, rfl⟩⟩
      obtain ⟨hx, hy, hlq⟩ := (hfound h).2 hcoherent
      refine ⟨value, h, heldReserves_eq_some.2 ⟨hx, hy, (exists_lq_iff hr h).2 ?_⟩⟩
      exact hlq _ (List.mem_singleton_self _)

/-- Pools of two tokens keep their lovelace. -/
theorem sufficientLovelace_of_written {bounds : PoolValidation} {before value : Value}
    (h : lqPoolValue assetX assetY assetLq id r before.coin = .ok value)
    (hbefore : sufficientLovelace bounds assetX assetY before = true) :
    sufficientLovelace bounds assetX assetY value = true := by
  obtain ⟨lq, -, h⟩ := bind_eq_ok.1 h
  obtain ⟨-, rfl⟩ := poolValue_eq_ok.1 h
  cases assetX <;> cases assetY <;>
    simp_all [sufficientLovelace, poolCoin, AssetClass.isNative]

end LqValues

/-! ## The unchanged part -/

namespace ImmutablePoolUtxo

theorem addressWith_stakePart (out : TransactionOutput) :
    (of out).addressWith out.address.stakePart = out.address := by
  unfold addressWith
  cases h : out.address.stakePart with
  | none => rfl
  | some hash => exact Address.updateStakingCred_stakePart h

theorem datum_of_pd (h : out.pd = some pd) :
    out.datum = some (.datum pd) := by
  obtain ⟨datum, hdatum, hpd⟩ := bind_eq_some_iff.1 h
  cases datum with
  | datum pd' =>
    cases hpd
    exact hdatum
  | hash _ => cases hpd

theorem exists_updateDatum {updates : List (ℕ × PlutusData)} (hpd : out.pd = some pd)
    (hfields : ∀ update ∈ updates, (pd.field update.1).isSome) :
    ∃ pd', pd.setFields updates = .ok pd' ∧
      (of out).updateDatum updates = .ok (some (.datum pd')) := by
  obtain ⟨pd', hset⟩ := exists_setFields hfields
  refine ⟨pd', hset, ?_⟩
  simp only [updateDatum, of, datum_of_pd hpd, elim_some, DatumOption.modifyM, hset]
  rfl

end ImmutablePoolUtxo

namespace PlutusData

theorem isSome_field {α : Type} {index : ℕ} {f : PlutusData → Option α} {a : α}
    (h : (pd.field index).bind f = some a) : (pd.field index).isSome := by
  obtain ⟨value, hvalue, -⟩ := bind_eq_some_iff.1 h
  exact isSome_iff_exists.2 ⟨value, hvalue⟩

end PlutusData

/-! ## Pools with liquidity tokens -/

/-- **Writing and reading.** A pool is written with a value that holds the reserves `r`, and reading
that gives the pool `pool r'` for the reserves `r'` that are found, if it is admitted. The pool that
comes back is `target` exactly when the reserves can be written, the data that comes back is the one
of `target`, and `target` is admitted. -/
theorem exists_written_iff {P : Type} {assetX assetY assetLq : AssetClass} {id : Token}
    {r : AbsolutePoolReserves} {write : ImmutablePoolUtxo → Exec TransactionOutput}
    {read : TransactionOutput → Option P} {target : P} (pool : AbsolutePoolReserves → P)
    (admitted : P → Bool) (SameData : Prop) (datum : Option DatumOption)
    (hwrite : write (.of out) = do
      return ⟨out.address, ← lqPoolValue assetX assetY assetLq id r out.value.coin, datum,
        out.scriptRef⟩)
    (hr : r.reservesLq ≤ u64Max)
    (hread : ∀ value, lqPoolValue assetX assetY assetLq id r out.value.coin = .ok value →
      read ⟨out.address, value, datum, out.scriptRef⟩ =
        (heldReserves value assetX assetY assetLq).bind fun r' =>
          if admitted (pool r') then some (pool r') else none)
    (hpool : ∀ r', pool r' = target ↔ r' = r ∧ SameData) :
    (∃ out', write (.of out) = .ok out' ∧ read out' = some target) ↔
    LqWritable assetX assetY assetLq id r ∧ SameData ∧ admitted target = true := by
  rw [← exists_held_iff hr, hwrite]
  constructor
  · rintro ⟨out', hwrite, hback⟩
    obtain ⟨value, hvalue, hout⟩ := bind_eq_ok.1 hwrite
    cases hout
    rw [hread value hvalue] at hback
    obtain ⟨r', hheld, hback⟩ := bind_eq_some_iff.1 hback
    split at hback
    case isTrue hadmitted =>
      have htarget := Option.some.inj hback
      obtain ⟨rfl, hdata⟩ := (hpool r').1 htarget
      exact ⟨⟨value, hvalue, hheld⟩, hdata, htarget ▸ hadmitted⟩
    case isFalse => cases hback
  · rintro ⟨⟨value, hvalue, hheld⟩, hdata, hadmitted⟩
    have htarget := (hpool r).2 ⟨rfl, hdata⟩
    refine ⟨_, bind_eq_ok.2 ⟨value, hvalue, rfl⟩, ?_⟩
    rw [hread value hvalue, hheld, bind_some, htarget, if_pos hadmitted]

/-! ### Classic pools -/

variable {r : AbsolutePoolReserves}

theorem ClassicPool.readBack_iff {p p' : ClassicPool} (h : tryFromLedger ctx out = some p)
    (hr : r.reservesLq ≤ u64Max)
    (hp' : p' = { p with
      reservesX := r.reservesX, reservesY := r.reservesY, liquidity := r.reservesLq }) :
    (∃ out', p'.intoLedger (.of out) = .ok out' ∧ tryFromLedger ctx out' = some p') ↔
      LqWritable p.assetX p.assetY p.assetLq p.id r := by
  simp only [tryFromLedger, bind_eq_bind, bind_eq_some_iff] at h
  obtain ⟨ver, hver, conf, ⟨pd, hpd, hconf⟩, held, hheld, id, hid, h⟩ := h
  cases h
  refine (exists_written_iff (fun r' => { p' with
    reservesX := r'.reservesX, reservesY := r'.reservesY, liquidity := r'.reservesLq })
    (fun _ => true) True out.datum ?_ hr ?_ ?_).trans (and_iff_left ⟨trivial, rfl⟩)
  · rw [hp']
    simp only [intoLedger, addressWith_stakePart]
    rfl
  · intro value hvalue
    simp [tryFromLedger, hver, TransactionOutput.pd, datum_of_pd hpd,
      DatumOption.intoPd, hconf, hid, hp']
  · intro r'
    subst hp'
    cases r
    cases r'
    simp

/-! ### Pools with a fee switch -/

namespace FeeSwitchPoolConfig

variable {pd pd' : PlutusData} {c : FeeSwitchPoolConfig}

theorem tryFromPd_eq_some {m : FeeSwitchDatumMapping} :
    tryFromPd m pd = some c ↔
      pd.fieldAsset 0 = some c.poolNft ∧ pd.fieldAsset 1 = some c.assetX ∧
      pd.fieldAsset 2 = some c.assetY ∧ pd.fieldAsset 3 = some c.assetLq ∧
      pd.fieldU64 m.lpFeeNumX = some c.lpFeeNumX ∧ pd.fieldU64 m.lpFeeNumY = some c.lpFeeNumY ∧
      pd.fieldU64 m.treasuryFeeNum = some c.treasuryFeeNum ∧
      pd.fieldU64 m.treasuryX = some c.treasuryX ∧ pd.fieldU64 m.treasuryY = some c.treasuryY ∧
      (pd.fieldU64 m.lqLowerBound).getD 0 = c.lqLowerBound := by
  constructor
  · intro h
    simp only [tryFromPd, bind_eq_bind, bind_eq_some_iff] at h
    obtain ⟨_, h0, _, h1, _, h2, _, h3, _, h4, _, h5, _, h6, _, h7, _, h8, h⟩ := h
    cases h
    exact ⟨h0, h1, h2, h3, h4, h5, h6, h7, h8, rfl⟩
  · rintro ⟨h0, h1, h2, h3, h4, h5, h6, h7, h8, h9⟩
    simp [tryFromPd, h0, h1, h2, h3, h4, h5, h6, h7, h8, h9]

/-- What is read after treasuries were written: a pool with a fee for each asset has other fields
at the positions of the writer. -/
def written (c : FeeSwitchPoolConfig) (x y : ℕ) : FeeSwitchPoolVer → FeeSwitchPoolConfig
  | .v1 => { c with treasuryX := x, treasuryY := y }
  | .v2 => { c with treasuryX := x, treasuryY := y }
  | .biDirV1 => { c with treasuryFeeNum := x, treasuryX := y }

theorem tryFromPd_written {ver : FeeSwitchPoolVer} (hx : x ≤ u64Max) (hy : y ≤ u64Max)
    (h : tryFromPd ver.mapping pd = some c)
    (hset : pd.setFields [(6, .ofU64 x), (7, .ofU64 y)] = .ok pd') :
    tryFromPd ver.mapping pd' = some (c.written x y ver) := by
  rw [tryFromPd_eq_some] at h ⊢
  simp only [fieldAsset, fieldU64, field_setFields hset] at h ⊢
  obtain ⟨h0, h1, h2, h3, hfeeX, hfeeY, hfee, htx, hty, hbound⟩ := h
  have hx := intoU64_ofU64 hx
  have hy := intoU64_ofU64 hy
  cases ver with
  | v1 => exact ⟨h0, h1, h2, h3, hfeeX, hfeeY, hfee, hx, hy, hbound⟩
  | v2 => exact ⟨h0, h1, h2, h3, hfeeX, hfeeY, hfee, hx, hy, hbound⟩
  | biDirV1 => exact ⟨h0, h1, h2, h3, hfeeX, hfeeY, hx, hy, hty, hbound⟩

/-- The positions of the writer are read by every version. -/
theorem isSome_written {ver : FeeSwitchPoolVer} (h : tryFromPd ver.mapping pd = some c) :
    (pd.field 6).isSome ∧ (pd.field 7).isSome := by
  obtain ⟨-, -, -, -, -, -, hfee, hx, hy, -⟩ := tryFromPd_eq_some.1 h
  cases ver with
  | v1 => exact ⟨isSome_field hx, isSome_field hy⟩
  | v2 => exact ⟨isSome_field hx, isSome_field hy⟩
  | biDirV1 => exact ⟨isSome_field hfee, isSome_field hx⟩

end FeeSwitchPoolConfig

namespace FeeSwitchPool

/-- The treasuries are read from where they are written. A pool with a fee for each asset reads its
treasury fee from where the treasury of `x` is written, its treasury of `x` from where the one of
`y` is written, and its treasury of `y` from where nothing is written. -/
def TreasuriesKept (p p' : FeeSwitchPool) : Prop :=
  match p.ver with
  | .v1 => True
  | .v2 => True
  | .biDirV1 => p'.treasuryX = p.treasuryFee.numer ∧ p'.treasuryY = p'.treasuryX ∧
      p.treasuryY = p'.treasuryY

theorem readBack_iff {p p' : FeeSwitchPool} (h : tryFromLedger ctx out = some p)
    (hr : r.reservesLq ≤ u64Max) (hx : x ≤ u64Max) (hy : y ≤ u64Max)
    (hp' : p' = { p with
      reservesX := r.reservesX, reservesY := r.reservesY, liquidity := r.reservesLq,
      treasuryX := x, treasuryY := y }) :
    (∃ out', p'.intoLedger (.of out) = .ok out' ∧ tryFromLedger ctx out' = some p') ↔
      LqWritable p.assetX p.assetY p.assetLq p.id r ∧ p.TreasuriesKept p' ∧ p'.admitted = true := by
  simp only [tryFromLedger, bind_eq_bind, bind_eq_some_iff] at h
  obtain ⟨ver, hver, conf, ⟨pd, hpd, hconf⟩, held, hheld, id, hid, h⟩ := h
  split at h
  case isFalse => cases h
  case isTrue hcheck =>
  cases h
  obtain ⟨-, hlovelace⟩ := Bool.and_eq_true_iff.1 hcheck
  have hfields : ∀ update ∈ [(6, ofU64 x), (7, ofU64 y)],
      (pd.field update.1).isSome := by
    simp [isSome_written hconf]
  obtain ⟨pd', hset, hdatum⟩ := exists_updateDatum hpd hfields
  have hconf' := tryFromPd_written hx hy hconf hset
  refine exists_written_iff (fun r' => { p' with
    reservesX := r'.reservesX, reservesY := r'.reservesY, liquidity := r'.reservesLq
    treasuryFee := ⟨(conf.written x y ver).treasuryFeeNum, feeDen⟩
    treasuryX := (conf.written x y ver).treasuryX
    treasuryY := (conf.written x y ver).treasuryY }) admitted _ (some (.datum pd')) ?_ hr ?_ ?_
  · rw [hp']
    simp only [intoLedger, addressWith_stakePart, datumUpdates, hdatum]
    rfl
  · intro value hvalue
    have hlov := sufficientLovelace_of_written hvalue hlovelace
    cases ver <;>
      simp [tryFromLedger, hver, TransactionOutput.pd, DatumOption.intoPd, hconf', hid, hp', hlov,
        written]
  · intro r'
    subst hp'
    cases r
    cases r'
    cases ver with
    | v1 => simp [written, TreasuriesKept]
    | v2 => simp [written, TreasuriesKept]
    | biDirV1 =>
      simp only [written, TreasuriesKept]
      grind

end FeeSwitchPool

/-! ### Pools with royalties -/

namespace RoyaltyPoolConfig

variable {pd pd' : PlutusData} {c : RoyaltyPoolConfig}

theorem tryFromPd_eq_some {m : RoyaltyPoolDatumMapping} :
    tryFromPd m pd = some c ↔
      (pd.field m.adminAddress).bind adminScriptHash = some c.adminAddress ∧
      pd.fieldAsset 0 = some c.poolNft ∧ pd.fieldAsset 1 = some c.assetX ∧
      pd.fieldAsset 2 = some c.assetY ∧ pd.fieldAsset 3 = some c.assetLq ∧
      pd.fieldU64 m.lpFeeNum = some c.lpFeeNum ∧
      pd.fieldU64 m.treasuryFeeNum = some c.treasuryFeeNum ∧
      pd.fieldU64 m.firstRoyaltyFeeNum = some c.firstRoyaltyFeeNum ∧
      pd.fieldU64 m.treasuryX = some c.treasuryX ∧ pd.fieldU64 m.treasuryY = some c.treasuryY ∧
      pd.fieldU64 m.firstRoyaltyX = some c.firstRoyaltyX ∧
      pd.fieldU64 m.firstRoyaltyY = some c.firstRoyaltyY ∧
      (pd.fieldBytes m.treasuryAddress).bind Bytes.fromRawBytes = some c.treasuryAddress ∧
      (pd.fieldBytes m.firstRoyaltyPubKey).bind Bytes.fromRawBytes = some c.firstRoyaltyPubKey ∧
      pd.fieldU64 m.royaltyNonce = some c.nonce := by
  constructor
  · intro h
    unfold tryFromPd at h
    obtain ⟨_, hadmin, h⟩ := bind_eq_some_iff.1 h
    obtain ⟨_, h0, h⟩ := bind_eq_some_iff.1 h
    obtain ⟨_, h1, h⟩ := bind_eq_some_iff.1 h
    obtain ⟨_, h2, h⟩ := bind_eq_some_iff.1 h
    obtain ⟨_, h3, h⟩ := bind_eq_some_iff.1 h
    obtain ⟨_, hlp, h⟩ := bind_eq_some_iff.1 h
    obtain ⟨_, hfee, h⟩ := bind_eq_some_iff.1 h
    obtain ⟨_, hroyalty, h⟩ := bind_eq_some_iff.1 h
    obtain ⟨_, htx, h⟩ := bind_eq_some_iff.1 h
    obtain ⟨_, hty, h⟩ := bind_eq_some_iff.1 h
    obtain ⟨_, hrx, h⟩ := bind_eq_some_iff.1 h
    obtain ⟨_, hry, h⟩ := bind_eq_some_iff.1 h
    obtain ⟨_, haddress, h⟩ := bind_eq_some_iff.1 h
    obtain ⟨_, hkey, h⟩ := bind_eq_some_iff.1 h
    obtain ⟨_, hnonce, h⟩ := bind_eq_some_iff.1 h
    cases h
    exact ⟨hadmin, h0, h1, h2, h3, hlp, hfee, hroyalty, htx, hty, hrx, hry, haddress, hkey, hnonce⟩
  · rintro ⟨hadmin, h0, h1, h2, h3, hlp, hfee, hroyalty, htx, hty, hrx, hry, haddress, hkey, hnonce⟩
    simp only [tryFromPd, hadmin, h0, h1, h2, h3, hlp, hfee, hroyalty, htx, hty, hrx, hry, haddress,
      hkey, hnonce, bind_eq_bind, bind_some]
    rfl

end RoyaltyPoolConfig

theorem adminScriptHash_listIntoPd (hash : ScriptHash) :
    adminScriptHash (InlineCredential.listIntoPd [⟨.script hash⟩]) = some hash := by
  simp [adminScriptHash, Credential.scriptHash]

namespace RoyaltyPool

/-- What is read of a pool with royalties: its parts are machine integers, and there is no second
royalty in the first version. -/
structure FromData (p : RoyaltyPool) : Prop where
  lpFee : p.lpFee.numer ≤ u64Max
  treasuryFee : p.treasuryFee.numer ≤ u64Max
  firstRoyaltyFee : p.firstRoyaltyFee.numer ≤ u64Max
  secondRoyaltyFee : p.secondRoyaltyFee.numer ≤ u64Max
  nonce : p.nonce ≤ u64Max
  treasuryX : p.treasuryX ≤ u64Max
  treasuryY : p.treasuryY ≤ u64Max
  firstRoyaltyX : p.firstRoyaltyX ≤ u64Max
  firstRoyaltyY : p.firstRoyaltyY ≤ u64Max
  secondRoyaltyX : p.secondRoyaltyX ≤ u64Max
  secondRoyaltyY : p.secondRoyaltyY ≤ u64Max
  second : p.ver ≠ .v2 → p.secondRoyaltyFee.numer = 0 ∧ p.secondRoyaltyX = 0 ∧ p.secondRoyaltyY = 0

section Written

variable {pd pd' : PlutusData} {c : RoyaltyPoolConfig} {s : SecondRoyalty} {q : RoyaltyPool}

theorem isSome_updates (hc : RoyaltyPoolConfig.tryFromPd q.ver.mapping pd = some c)
    (hs : SecondRoyalty.tryFromPd q.ver pd = some s) :
    ∀ update ∈ q.datumUpdates, (pd.field update.1).isSome := by
  obtain ⟨hadmin, -, -, -, -, hlp, hfee, hroyalty, htx, hty, hrx, hry, haddress, -, hnonce⟩ :=
    RoyaltyPoolConfig.tryFromPd_eq_some.1 hc
  obtain ⟨raw, hraw, -⟩ := bind_eq_some_iff.1 haddress
  have hsecond : ∀ update ∈ q.secondUpdates, (pd.field update.1).isSome := by
    unfold secondUpdates
    cases hver : q.ver with
    | v1 => simp
    | v1LedgerFixed => simp
    | v2 =>
      rw [hver] at hs
      simp only [SecondRoyalty.tryFromPd, SecondRoyalty.tryFromPdV2, bind_eq_bind,
        bind_eq_some_iff] at hs
      obtain ⟨_, h7, _, h12, _, h13, -⟩ := hs
      simp [isSome_field h7, isSome_field h12, isSome_field h13]
  intro update hupdate
  rcases List.mem_append.1 hupdate with hfirst | hrest
  · simp only [List.mem_cons, List.not_mem_nil, or_false] at hfirst
    rcases hfirst with rfl | rfl | rfl | rfl | rfl | rfl | rfl | rfl | rfl | rfl
    · exact isSome_field hlp
    · exact isSome_field hfee
    · exact isSome_field hroyalty
    · exact isSome_field htx
    · exact isSome_field hty
    · exact isSome_field hrx
    · exact isSome_field hry
    · exact isSome_field hadmin
    · exact isSome_field hraw
    · exact isSome_field hnonce
  · exact hsecond update hrest

theorem config_written (hq : q.FromData)
    (hc : RoyaltyPoolConfig.tryFromPd q.ver.mapping pd = some c)
    (hset : pd.setFields q.datumUpdates = .ok pd') :
    RoyaltyPoolConfig.tryFromPd q.ver.mapping pd' = some { c with
      lpFeeNum := q.lpFee.numer, treasuryFeeNum := q.treasuryFee.numer,
      firstRoyaltyFeeNum := q.firstRoyaltyFee.numer, treasuryX := q.treasuryX,
      treasuryY := q.treasuryY, firstRoyaltyX := q.firstRoyaltyX, firstRoyaltyY := q.firstRoyaltyY,
      adminAddress := q.adminAddress, treasuryAddress := q.treasuryAddress, nonce := q.nonce } := by
  rw [RoyaltyPoolConfig.tryFromPd_eq_some] at hc ⊢
  simp only [fieldAsset, fieldU64, fieldBytes,
    field_setFields hset, datumUpdates, secondUpdates] at hc ⊢
  obtain ⟨-, h0, h1, h2, h3, -, -, -, -, -, -, -, -, hkey, -⟩ := hc
  have hadmin := adminScriptHash_listIntoPd q.adminAddress
  have hlp := intoU64_ofU64 hq.lpFee
  have hfee := intoU64_ofU64 hq.treasuryFee
  have hroyalty := intoU64_ofU64 hq.firstRoyaltyFee
  have htx := intoU64_ofU64 hq.treasuryX
  have hty := intoU64_ofU64 hq.treasuryY
  have hrx := intoU64_ofU64 hq.firstRoyaltyX
  have hry := intoU64_ofU64 hq.firstRoyaltyY
  have haddress := Bytes.fromRawBytes_bytes q.treasuryAddress
  have hnonce := intoU64_ofU64 hq.nonce
  cases hver : q.ver <;> rw [hver] at hkey <;>
    exact ⟨hadmin, h0, h1, h2, h3, hlp, hfee, hroyalty, htx, hty, hrx, hry, haddress, hkey, hnonce⟩

theorem second_written (hq : q.FromData) (hs : SecondRoyalty.tryFromPd q.ver pd = some s)
    (hfee : q.secondRoyaltyFee = s.fee) (hset : pd.setFields q.datumUpdates = .ok pd') :
    SecondRoyalty.tryFromPd q.ver pd' =
      some { s with royaltyX := q.secondRoyaltyX, royaltyY := q.secondRoyaltyY } := by
  have hnone : q.ver ≠ .v2 → s = SecondRoyalty.none → some SecondRoyalty.none =
      some { s with royaltyX := q.secondRoyaltyX, royaltyY := q.secondRoyaltyY } := by
    intro hver hs
    obtain ⟨-, hx, hy⟩ := hq.second hver
    rw [hs, hx, hy]
    rfl
  have hsecond := hq.secondRoyaltyFee
  cases hver : q.ver with
  | v1 =>
    rw [hver] at hs hnone
    exact hnone (by decide) (Option.some.inj hs).symm
  | v1LedgerFixed =>
    rw [hver] at hs hnone
    exact hnone (by decide) (Option.some.inj hs).symm
  | v2 =>
    rw [hver] at hs
    simp only [SecondRoyalty.tryFromPd, SecondRoyalty.tryFromPdV2, bind_eq_bind,
      bind_eq_some_iff] at hs
    obtain ⟨feeNum, h7, x, h12, y, h13, key, h17, hs⟩ := hs
    cases hs
    simp only [fieldU64, fieldBytes, field_setFields hset,
      datumUpdates, secondUpdates, hver, SecondRoyalty.tryFromPd, SecondRoyalty.tryFromPdV2] at h17 ⊢
    rw [hfee] at hsecond ⊢
    refine bind_eq_some_iff.2 ⟨feeNum, intoU64_ofU64 hsecond, ?_⟩
    refine bind_eq_some_iff.2 ⟨_, intoU64_ofU64 hq.secondRoyaltyX, ?_⟩
    refine bind_eq_some_iff.2 ⟨_, intoU64_ofU64 hq.secondRoyaltyY, ?_⟩
    exact bind_eq_some_iff.2 ⟨key, bind_eq_some_iff.2 h17, rfl⟩

end Written

theorem fromData {p : RoyaltyPool} (h : tryFromLedger ctx out = some p) : p.FromData := by
  simp only [tryFromLedger, bind_eq_bind, bind_eq_some_iff] at h
  obtain ⟨ver, -, conf, ⟨pd, -, hconf⟩, second, ⟨pd₂, -, hsecond⟩, held, -, id, -, h⟩ := h
  split at h
  case isFalse => cases h
  case isTrue =>
  cases h
  obtain ⟨-, -, -, -, -, hlp, hfee, hroyalty, htx, hty, hrx, hry, -, -, hnonce⟩ :=
    RoyaltyPoolConfig.tryFromPd_eq_some.1 hconf
  have hrange : second.fee.numer ≤ u64Max ∧ second.royaltyX ≤ u64Max ∧ second.royaltyY ≤ u64Max ∧
      (ver ≠ .v2 → second.fee.numer = 0 ∧ second.royaltyX = 0 ∧ second.royaltyY = 0) := by
    cases ver with
    | v1 =>
      cases hsecond
      exact ⟨by decide, by decide, by decide, fun _ => ⟨rfl, rfl, rfl⟩⟩
    | v1LedgerFixed =>
      cases hsecond
      exact ⟨by decide, by decide, by decide, fun _ => ⟨rfl, rfl, rfl⟩⟩
    | v2 =>
      simp only [SecondRoyalty.tryFromPd, SecondRoyalty.tryFromPdV2, bind_eq_bind,
        bind_eq_some_iff] at hsecond
      obtain ⟨feeNum, h7, x, h12, y, h13, key, -, hsecond⟩ := hsecond
      cases hsecond
      exact ⟨fieldU64_le h7, fieldU64_le h12, fieldU64_le h13,
        fun hver => absurd rfl hver⟩
  obtain ⟨hfee₂, hx₂, hy₂, hnone⟩ := hrange
  exact {
    lpFee := fieldU64_le hlp
    treasuryFee := fieldU64_le hfee
    firstRoyaltyFee := fieldU64_le hroyalty
    secondRoyaltyFee := hfee₂
    nonce := fieldU64_le hnonce
    treasuryX := fieldU64_le htx
    treasuryY := fieldU64_le hty
    firstRoyaltyX := fieldU64_le hrx
    firstRoyaltyY := fieldU64_le hry
    secondRoyaltyX := hx₂
    secondRoyaltyY := hy₂
    second := hnone }

theorem readBack_iff {p p' : RoyaltyPool}
    (h : tryFromLedger ctx out = some p) (hr : r.reservesLq ≤ u64Max)
    (hdata : p'.FromData)
    (hp' : p' = { p with
      reservesX := r.reservesX, reservesY := r.reservesY, liquidity := r.reservesLq,
      treasuryX := p'.treasuryX, treasuryY := p'.treasuryY, firstRoyaltyX := p'.firstRoyaltyX,
      firstRoyaltyY := p'.firstRoyaltyY, secondRoyaltyX := p'.secondRoyaltyX,
      secondRoyaltyY := p'.secondRoyaltyY }) :
    (∃ out', p'.intoLedger (.of out) = .ok out' ∧ tryFromLedger ctx out' = some p') ↔
      LqWritable p.assetX p.assetY p.assetLq p.id r ∧ p'.admitted = true := by
  simp only [tryFromLedger, bind_eq_bind, bind_eq_some_iff] at h
  obtain ⟨ver, hver, conf, ⟨pd, hpd, hconf⟩, second, ⟨pd₂, hpd₂, hsecond⟩, held, -, id, hid, h⟩ := h
  cases hpd.symm.trans hpd₂
  split at h
  case isFalse => cases h
  case isTrue hcheck =>
  cases h
  obtain ⟨-, hlovelace⟩ := Bool.and_eq_true_iff.1 hcheck
  -- the written pool has the version, the parameters and the keys of the one that was read
  have hq : p'.ver = ver ∧ p'.secondRoyaltyFee = second.fee := by
    rw [hp']
    exact ⟨rfl, rfl⟩
  obtain ⟨hqver, hqfee⟩ := hq
  rw [← hqver] at hconf hsecond
  obtain ⟨pd', hset, hdatum⟩ :=
    exists_updateDatum hpd (isSome_updates hconf hsecond)
  have hconf' := config_written hdata hconf hset
  have hsecond' := second_written hdata hsecond hqfee hset
  rw [hqver] at hconf' hsecond'
  refine (exists_written_iff (fun r' => { p' with
    reservesX := r'.reservesX, reservesY := r'.reservesY, liquidity := r'.reservesLq })
    admitted True (some (.datum pd')) ?_ hr ?_ ?_).trans
    (and_congr_right' (.of_eq (true_and _)))
  · simp only [intoLedger, hdatum]
    rw [hp']
    simp only [addressWith_stakePart]
    rfl
  · intro value hvalue
    have hlov := sufficientLovelace_of_written hvalue hlovelace
    simp only [tryFromLedger, hver, TransactionOutput.pd, DatumOption.intoPd, hconf', hsecond', hid,
      hlov, bind_eq_bind, bind_some, Bool.and_true]
    rw [hp']
    rfl
  · intro r'
    have hreserves : p'.reservesX = r.reservesX ∧ p'.reservesY = r.reservesY ∧
        p'.liquidity = r.reservesLq := by
      rw [hp']
      exact ⟨rfl, rfl, rfl⟩
    obtain ⟨hrx, hry, hlq⟩ := hreserves
    constructor
    · intro heq
      refine ⟨AbsolutePoolReserves.ext ?_ ?_ ?_, trivial⟩
      · exact (congrArg RoyaltyPool.reservesX heq).trans hrx
      · exact (congrArg RoyaltyPool.reservesY heq).trans hry
      · exact (congrArg RoyaltyPool.liquidity heq).trans hlq
    · rintro ⟨rfl, -⟩
      simp only [← hrx, ← hry, ← hlq]

end RoyaltyPool

/-! ### Weighted pools -/

namespace BalancePoolConfig

variable {pd pd' : PlutusData} {c : BalancePoolConfig}

theorem tryFromPd_eq_some :
    tryFromPd pd = some c ↔
      pd.fieldAsset 0 = some c.poolNft ∧ pd.fieldAsset 1 = some c.assetX ∧
      pd.fieldAsset 2 = some c.assetY ∧ pd.fieldAsset 3 = some c.assetLq ∧
      pd.fieldU64 4 = some c.lpFeeNum ∧ pd.fieldU64 5 = some c.treasuryFeeNum ∧
      pd.fieldU64 6 = some c.treasuryX ∧ pd.fieldU64 7 = some c.treasuryY := by
  constructor
  · intro h
    simp only [tryFromPd, bind_eq_bind, bind_eq_some_iff] at h
    obtain ⟨_, h0, _, h1, _, h2, _, h3, _, h4, _, h5, _, h6, _, h7, h⟩ := h
    cases h
    exact ⟨h0, h1, h2, h3, h4, h5, h6, h7⟩
  · rintro ⟨h0, h1, h2, h3, h4, h5, h6, h7⟩
    simp [tryFromPd, h0, h1, h2, h3, h4, h5, h6, h7]

theorem tryFromPd_written (hx : x ≤ u64Max) (hy : y ≤ u64Max)
    (h : tryFromPd pd = some c) (hset : pd.setFields [(6, .ofU64 x), (7, .ofU64 y)] = .ok pd') :
    tryFromPd pd' = some { c with treasuryX := x, treasuryY := y } := by
  rw [tryFromPd_eq_some] at h ⊢
  simp only [fieldAsset, fieldU64, field_setFields hset] at h ⊢
  obtain ⟨h0, h1, h2, h3, h4, h5, -, -⟩ := h
  exact ⟨h0, h1, h2, h3, h4, h5, intoU64_ofU64 hx, intoU64_ofU64 hy⟩

end BalancePoolConfig

theorem BalancePool.readBack_iff {p p' : BalancePool} (h : tryFromLedger ctx out = some p)
    (hr : r.reservesLq ≤ u64Max) (hx : x ≤ u64Max) (hy : y ≤ u64Max)
    (hp' : p' = { p with
      reservesX := r.reservesX, reservesY := r.reservesY, liquidity := r.reservesLq,
      treasuryX := x, treasuryY := y }) :
    (∃ out', p'.intoLedger (.of out) = .ok out' ∧ tryFromLedger ctx out' = some p') ↔
      LqWritable p.assetX p.assetY p.assetLq p.id r := by
  simp only [tryFromLedger, bind_eq_bind, bind_eq_some_iff] at h
  obtain ⟨ver, hver, conf, ⟨pd, hpd, hconf⟩, held, hheld, id, hid, h⟩ := h
  split at h
  case isFalse => cases h
  case isTrue hlovelace =>
  cases h
  have hfields : ∀ update ∈ [(6, ofU64 x), (7, ofU64 y)],
      (pd.field update.1).isSome := by
    obtain ⟨-, -, -, -, -, -, h6, h7⟩ := BalancePoolConfig.tryFromPd_eq_some.1 hconf
    simp [isSome_field h6, isSome_field h7]
  obtain ⟨pd', hset, hdatum⟩ := exists_updateDatum hpd hfields
  have hconf' := BalancePoolConfig.tryFromPd_written hx hy hconf hset
  refine (exists_written_iff p'.withReserves (fun _ => true) True (some (.datum pd')) ?_ hr ?_
    ?_).trans (and_iff_left ⟨trivial, rfl⟩)
  · rw [hp']
    simp only [intoLedger, datumUpdates, hdatum]
    rfl
  · intro value hvalue
    have hlov := sufficientLovelace_of_written hvalue hlovelace
    simp [tryFromLedger, hver, TransactionOutput.pd, DatumOption.intoPd, hconf', hid, hp', hlov,
      withReserves]
  · intro r'
    subst hp'
    cases r
    cases r'
    simp [withReserves]

/-! ### Stable pools -/

namespace StablePoolT2TConfig

variable {pd pd' : PlutusData} {c : StablePoolT2TConfig}

theorem tryFromPd_eq_some :
    tryFromPd pd = some c ↔
      pd.fieldAsset 0 = some c.poolNft ∧ pd.fieldU64 1 = some c.an2n ∧
      pd.fieldAsset 2 = some c.assetX ∧ pd.fieldAsset 3 = some c.assetY ∧
      pd.fieldU64 4 = some c.multiplierX ∧ pd.fieldU64 5 = some c.multiplierY ∧
      pd.fieldAsset 6 = some c.assetLq ∧ pd.fieldU64 9 = some c.lpFeeNum ∧
      pd.fieldU64 10 = some c.treasuryFeeNum ∧ pd.fieldU64 13 = some c.treasuryX ∧
      pd.fieldU64 14 = some c.treasuryY := by
  constructor
  · intro h
    simp only [tryFromPd, bind_eq_bind, bind_eq_some_iff] at h
    obtain ⟨_, h0, _, h1, _, h2, _, h3, _, h4, _, h5, _, h6, _, h9, _, h10, _, h13, _, h14, h⟩ := h
    cases h
    exact ⟨h0, h1, h2, h3, h4, h5, h6, h9, h10, h13, h14⟩
  · rintro ⟨h0, h1, h2, h3, h4, h5, h6, h9, h10, h13, h14⟩
    simp [tryFromPd, h0, h1, h2, h3, h4, h5, h6, h9, h10, h13, h14]

theorem tryFromPd_written (hx : x ≤ u64Max) (hy : y ≤ u64Max)
    (h : tryFromPd pd = some c) (hset : pd.setFields [(13, .ofU64 x), (14, .ofU64 y)] = .ok pd') :
    tryFromPd pd' = some { c with treasuryX := x, treasuryY := y } := by
  rw [tryFromPd_eq_some] at h ⊢
  simp only [fieldAsset, fieldU64, field_setFields hset] at h ⊢
  obtain ⟨h0, h1, h2, h3, h4, h5, h6, h9, h10, -, -⟩ := h
  exact ⟨h0, h1, h2, h3, h4, h5, h6, h9, h10, intoU64_ofU64 hx,
    intoU64_ofU64 hy⟩

end StablePoolT2TConfig

theorem StablePoolT2T.readBack_iff {p p' : StablePoolT2T}
    (h : tryFromLedger ctx out = some p) (hr : r.reservesLq ≤ u64Max) (hx : x ≤ u64Max)
    (hy : y ≤ u64Max)
    (hp' : p' = { p with
      reservesX := r.reservesX, reservesY := r.reservesY, liquidity := r.reservesLq,
      treasuryX := x, treasuryY := y }) :
    (∃ out', p'.intoLedger (.of out) = .ok out' ∧ tryFromLedger ctx out' = some p') ↔
      LqWritable p.assetX p.assetY p.assetLq p.id r ∧ p'.admitted = true := by
  simp only [tryFromLedger, bind_eq_bind, bind_eq_some_iff] at h
  obtain ⟨ver, hver, conf, ⟨pd, hpd, hconf⟩, held, hheld, id, hid, h⟩ := h
  split at h
  case isFalse => cases h
  case isTrue hcheck =>
  cases h
  obtain ⟨-, hlovelace⟩ := Bool.and_eq_true_iff.1 hcheck
  have hfields : ∀ update ∈ [(13, ofU64 x), (14, ofU64 y)],
      (pd.field update.1).isSome := by
    obtain ⟨-, -, -, -, -, -, -, -, -, h13, h14⟩ := StablePoolT2TConfig.tryFromPd_eq_some.1 hconf
    simp [isSome_field h13, isSome_field h14]
  obtain ⟨pd', hset, hdatum⟩ := exists_updateDatum hpd hfields
  have hconf' := StablePoolT2TConfig.tryFromPd_written hx hy hconf hset
  refine (exists_written_iff p'.withReserves admitted True (some (.datum pd')) ?_ hr ?_ ?_).trans
    (and_congr_right' (.of_eq (true_and _)))
  · rw [hp']
    simp only [intoLedger, datumUpdates, hdatum]
    rfl
  · intro value hvalue
    have hlov := sufficientLovelace_of_written hvalue hlovelace
    simp [tryFromLedger, hver, TransactionOutput.pd, DatumOption.intoPd, hconf', hid, hp', hlov,
      withReserves]
  · intro r'
    subst hp'
    cases r
    cases r'
    simp [withReserves]

/-! ## Quadratic pools -/

theorem isSome_writeTokens {writes : List (Token × ℕ)} {w : Token × ℕ} (h : w ∈ writes) :
    (writeTokens writes w.1).isSome := by
  induction writes using List.reverseRecOn with
  | nil => cases h
  | append_singleton writes last ih =>
    rw [writeTokens_append]
    by_cases heq : w.1 = last.1
    · rw [heq, update_self]
      rfl
    · rw [update_of_ne heq]
      rcases List.mem_append.1 h with h | h
      · exact ih h
      · exact absurd (congrArg Prod.fst (List.mem_singleton.1 h)) heq

/-- A pool without liquidity tokens can be written, and its reserves are found again. -/
def QuadraticWritable (assetX assetY : AssetClass) (id : Token) (reservesX reservesY : ℕ) : Prop :=
  ¬ (assetX.isNative ∧ assetY.isNative) ∧
    Coherent (poolWrites assetX assetY reservesX reservesY [(id, 1)])

/-- The writer writes asset `x`, so that the default of the reader is not used. -/
theorem getD_amountOf_iff {assetX assetY : AssetClass} {reservesX reservesY coin : ℕ}
    {tokens : List (Token × ℕ)}
    (h : poolValue assetX assetY reservesX reservesY coin tokens = .ok value) :
    (value.amountOf assetX).getD 0 = reservesX ↔ value.amountOf assetX = some reservesX := by
  obtain ⟨-, rfl⟩ := poolValue_eq_ok.1 h
  have hsome : ((⟨poolCoin assetX assetY reservesX reservesY coin,
      writeTokens (poolWrites assetX assetY reservesX reservesY tokens)⟩ : Value).amountOf
        assetX).isSome := by
    cases assetX with
    | native => rfl
    | token x => exact isSome_writeTokens (w := (x, reservesX)) (by simp [poolWrites, assetWrites])
  obtain ⟨amount, hamount⟩ := isSome_iff_exists.1 hsome
  rw [hamount, getD_some, Option.some.injEq]

namespace QuadraticPool

theorem readBack_iff {p p' : QuadraticPool} {x y fee : ℕ} (h : tryFromLedger ctx out = some p)
    (hp' : p' = { p with reservesX := x, reservesY := y, accumulatedXFee := fee }) :
    (∃ out', p'.intoLedger (.of out) = .ok out' ∧ tryFromLedger ctx out' = some p') ↔
      QuadraticWritable p.assetX p.assetY p.id x y ∧ p'.accumulatedXFee = p.accumulatedXFee ∧
        p'.admitted = true := by
  simp only [tryFromLedger, bind_eq_bind, bind_eq_some_iff] at h
  obtain ⟨ver, hver, conf, ⟨pd, hpd, hconf⟩, id, hid, held, -, h⟩ := h
  split at h
  case isFalse => cases h
  case isTrue hcheck =>
  cases h
  obtain ⟨hoperator, -⟩ := hcheck
  have hread : ∀ value : Value, tryFromLedger ctx ⟨out.address, value, out.datum, out.scriptRef⟩ =
      (value.amountOf conf.assetY).bind fun y' =>
        if ({ p' with
            reservesX := (value.amountOf conf.assetX).getD 0, reservesY := y',
            accumulatedXFee := conf.accumulatedXFee } : QuadraticPool).admitted then
          some { p' with
            reservesX := (value.amountOf conf.assetX).getD 0, reservesY := y',
            accumulatedXFee := conf.accumulatedXFee }
        else none := by
    intro value
    simp [tryFromLedger, hver, TransactionOutput.pd, datum_of_pd hpd,
      DatumOption.intoPd, hconf, hid, hoperator, hp']
  have hfound : ∀ {value : Value}, poolValue conf.assetX conf.assetY x y out.value.coin
      ([] ++ [(id, 1)]) = .ok value → _ := found_iff
  have hinto : p'.intoLedger (.of out) = (do
      return ⟨out.address, ← poolValue conf.assetX conf.assetY x y out.value.coin [(id, 1)],
        out.datum, out.scriptRef⟩) := by
    rw [hp']
    rfl
  rw [hinto]
  constructor
  · rintro ⟨out', hwrite, hback⟩
    obtain ⟨value, hvalue, hout⟩ := bind_eq_ok.1 hwrite
    cases hout
    rw [hread] at hback
    obtain ⟨y', hy', hback⟩ := bind_eq_some_iff.1 hback
    split at hback
    case isFalse => cases hback
    case isTrue hadmitted =>
    have hback := Option.some.inj hback
    have hx : (value.amountOf conf.assetX).getD 0 = x := by
      simpa [hp'] using congrArg QuadraticPool.reservesX hback
    have hy : y' = y := by simpa [hp'] using congrArg QuadraticPool.reservesY hback
    have hfee : conf.accumulatedXFee = p'.accumulatedXFee := by
      simpa using congrArg QuadraticPool.accumulatedXFee hback
    have hcoherent := (hfound hvalue).1 ⟨(getD_amountOf_iff hvalue).1 hx, hy ▸ hy', by simp⟩
    exact ⟨⟨(poolValue_eq_ok.1 hvalue).1, hcoherent⟩, hfee.symm, hback ▸ hadmitted⟩
  · rintro ⟨⟨hnative, hcoherent⟩, hfee, hadmitted⟩
    obtain ⟨value, hvalue⟩ : ∃ value, poolValue conf.assetX conf.assetY x y out.value.coin
        [(id, 1)] = .ok value := ⟨_, poolValue_eq_ok.2 ⟨hnative, rfl⟩⟩
    obtain ⟨hx, hy, -⟩ := (hfound hvalue).2 hcoherent
    refine ⟨_, bind_eq_ok.2 ⟨value, hvalue, rfl⟩, ?_⟩
    have hfee : conf.accumulatedXFee = p'.accumulatedXFee := hfee.symm
    have hsame : ({ p' with
        reservesX := (value.amountOf conf.assetX).getD 0, reservesY := y,
        accumulatedXFee := conf.accumulatedXFee } : QuadraticPool) = p' := by
      rw [(getD_amountOf_iff hvalue).2 hx, hfee, hp']
    rw [hread, hy, bind_some, hsame, if_pos hadmitted]

end QuadraticPool

end Splash.Cardano
