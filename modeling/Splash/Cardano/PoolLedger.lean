import Splash.Cardano.Deposits
import Splash.Cardano.Quadratic

/-!
# Pools on the ledger

How pools are read from outputs and written back onto the part of an output that does not change.
The version of a pool is known by its script; reserves and liquidity are read from the value, the
rest from the data, by the position of the fields.

Amounts are machine integers of a release build: differences and sums wrap around.
-/

namespace Splash.Cardano

open Lib LiquidityBook

/-! ## Machine integers that wrap around -/

def wrapSub (a b : ℕ) : ℕ := (((a : ℤ) - b) % 2 ^ 64).toNat

def wrapAdd (a b : ℕ) : ℕ := (a + b) % 2 ^ 64

def maxLqCap : ℕ := 0x7fffffffffffffff

def feeDen : ℕ := 100000

def legacyFeeNumMultiplier : ℕ := 100

theorem wrapSub_le (a b : ℕ) : wrapSub a b ≤ u64Max := by
  unfold wrapSub u64Max
  omega

theorem wrapSub_wrapSub {a b : ℕ} (h : b ≤ u64Max) : wrapSub a (wrapSub a b) = b := by
  unfold wrapSub
  unfold u64Max at h
  omega

/-! ## Context of a reader -/

structure DeployedScriptInfo where
  scriptHash : ScriptHash
  marginalCost : ExUnits

/-- Metadata of a transaction; only numbers are told apart. -/
inductive TransactionMetadatum where
  | uint (value : ℕ)
  | other

structure PoolContext where
  constFnPoolV1 : DeployedScriptInfo
  constFnPoolV2 : DeployedScriptInfo
  constFnPoolFeeSwitch : DeployedScriptInfo
  constFnPoolFeeSwitchV2 : DeployedScriptInfo
  constFnPoolFeeSwitchBiDirFee : DeployedScriptInfo
  royaltyPoolV1 : DeployedScriptInfo
  royaltyPoolV1LedgerFixed : DeployedScriptInfo
  royaltyPoolV2 : DeployedScriptInfo
  balanceFnPoolV1 : DeployedScriptInfo
  balanceFnPoolV2 : DeployedScriptInfo
  stableFnPoolT2T : DeployedScriptInfo
  degenQuadraticPoolV1 : DeployedScriptInfo
  degenQuadraticPoolV1T2T : DeployedScriptInfo
  poolValidation : PoolValidation
  operatorCred : Ed25519KeyHash
  /-- Is a token minted by the transaction of the output. -/
  mints : Option (Token → Bool)
  metadata : Option (ℕ → Option TransactionMetadatum)

/-- The first version whose script is the one of the address. -/
def versionOf {V : Type} (scripts : List (V × DeployedScriptInfo)) (address : Address) : Option V :=
  address.scriptHash.bind fun hash =>
    (scripts.find? fun script => script.2.scriptHash = hash).map Prod.fst

/-! ## The value of a pool -/

def heldReserves (value : Value) (assetX assetY assetLq : AssetClass) :
    Option AbsolutePoolReserves := do
  let liquidityNeg ← value.amountOf assetLq
  let reservesX ← value.amountOf assetX
  let reservesY ← value.amountOf assetY
  return ⟨reservesX, reservesY, wrapSub maxLqCap liquidityNeg⟩

/-- Pools of two tokens have to hold some lovelace. -/
def sufficientLovelace (bounds : PoolValidation) (assetX assetY : AssetClass) (value : Value) :
    Bool :=
  assetX.isNative || assetY.isNative || bounds.minT2tLovelace ≤ value.coin

def unwrapToken (asset : AssetClass) : Exec Token :=
  Exec.expect "called `Option::unwrap()` on a `None` value" asset.intoToken

/-- A value with the reserves and other tokens; `coin` is kept by pools of two tokens. -/
def poolValue (assetX assetY : AssetClass) (reservesX reservesY coin : ℕ)
    (tokens : List (Token × ℕ)) : Exec Value := do
  if assetX.isNative then
    let y ← unwrapToken assetY
    return ⟨reservesX, writeTokens ((y, reservesY) :: tokens)⟩
  else if assetY.isNative then
    let x ← unwrapToken assetX
    return ⟨reservesY, writeTokens ((x, reservesX) :: tokens)⟩
  else
    let x ← unwrapToken assetX
    let y ← unwrapToken assetY
    return ⟨coin, writeTokens ((x, reservesX) :: (y, reservesY) :: tokens)⟩

def lqPoolValue (assetX assetY assetLq : AssetClass) (id : Token)
    (reserves : AbsolutePoolReserves) (coin : ℕ) : Exec Value := do
  let lq ← unwrapToken assetLq
  poolValue assetX assetY reserves.reservesX reserves.reservesY coin
    [(lq, wrapSub maxLqCap reserves.reservesLq), (id, 1)]

/-- What does not change about the output of a pool. -/
structure ImmutablePoolUtxo where
  address : Address
  value : ℕ
  datumOption : Option DatumOption
  scriptReference : Option ScriptHash

namespace ImmutablePoolUtxo

def of (out : TransactionOutput) : ImmutablePoolUtxo :=
  ⟨out.address, out.value.coin, out.datum, out.scriptRef⟩

/-- The data with some fields replaced. -/
def updateDatum (immut : ImmutablePoolUtxo) (updates : List (ℕ × PlutusData)) :
    Exec (Option DatumOption) :=
  immut.datumOption.elim (.ok none) fun datum =>
    return some (← datum.modifyM (·.setFields updates))

/-- The address that stakes with a script, if one is given. -/
def addressWith (immut : ImmutablePoolUtxo) (stakePart : Option ScriptHash) : Address :=
  stakePart.elim immut.address fun hash => immut.address.updateStakingCred (.script hash)

end ImmutablePoolUtxo

/-! ## Classic pools -/

structure LegacyCFMMPoolConfig where
  poolNft : AssetClass
  assetX : AssetClass
  assetY : AssetClass
  assetLq : AssetClass
  lpFeeNum : ℕ
  lqLowerBound : ℕ

def LegacyCFMMPoolConfig.tryFromPd (pd : PlutusData) : Option LegacyCFMMPoolConfig := do
  let poolNft ← pd.fieldAsset 0
  let assetX ← pd.fieldAsset 1
  let assetY ← pd.fieldAsset 2
  let assetLq ← pd.fieldAsset 3
  let lpFeeNum ← pd.fieldU64 4
  return ⟨poolNft, assetX, assetY, assetLq, lpFeeNum, (pd.fieldU64 6).getD 0⟩

namespace PoolContext

def classicScripts (ctx : PoolContext) : List (ClassicPoolVer × DeployedScriptInfo) :=
  [(.v1, ctx.constFnPoolV1), (.v2, ctx.constFnPoolV2)]

def classicMarginalCost (ctx : PoolContext) : ClassicPoolVer → ExUnits
  | .v1 => ctx.constFnPoolV1.marginalCost
  | .v2 => ctx.constFnPoolV2.marginalCost

end PoolContext

namespace ClassicPool

def tryFromLedger (ctx : PoolContext) (out : TransactionOutput) : Option ClassicPool := do
  let ver ← versionOf ctx.classicScripts out.address
  let conf ← out.pd.bind LegacyCFMMPoolConfig.tryFromPd
  let held ← heldReserves out.value conf.assetX conf.assetY conf.assetLq
  let id ← conf.poolNft.intoToken
  return {
    id, ver
    reservesX := held.reservesX
    reservesY := held.reservesY
    liquidity := held.reservesLq
    assetX := conf.assetX
    assetY := conf.assetY
    assetLq := conf.assetLq
    lpFee := ⟨truncateU64 (conf.lpFeeNum * legacyFeeNumMultiplier), feeDen⟩
    lqLowerBound := conf.lqLowerBound
    marginalCost := ctx.classicMarginalCost ver
    bounds := ctx.poolValidation
    stakePartScriptHash := out.address.stakePart }

/-- The data of a classic pool does not change. -/
def intoLedger (p : ClassicPool) (immut : ImmutablePoolUtxo) : Exec TransactionOutput := do
  let value ← lqPoolValue p.assetX p.assetY p.assetLq p.id
    ⟨p.reservesX, p.reservesY, p.liquidity⟩ immut.value
  return ⟨immut.addressWith p.stakePartScriptHash, value, immut.datumOption, immut.scriptReference⟩

end ClassicPool

/-! ## Pools with a fee switch -/

structure FeeSwitchPoolConfig where
  poolNft : AssetClass
  assetX : AssetClass
  assetY : AssetClass
  assetLq : AssetClass
  lpFeeNumX : ℕ
  lpFeeNumY : ℕ
  treasuryFeeNum : ℕ
  treasuryX : ℕ
  treasuryY : ℕ
  lqLowerBound : ℕ

structure FeeSwitchDatumMapping where
  lpFeeNumX : ℕ
  lpFeeNumY : ℕ
  treasuryFeeNum : ℕ
  treasuryX : ℕ
  treasuryY : ℕ
  lqLowerBound : ℕ

/-- One fee for both assets. -/
def feeSwitchMapping : FeeSwitchDatumMapping := ⟨4, 4, 5, 6, 7, 9⟩

def feeSwitchBidirectionalMapping : FeeSwitchDatumMapping := ⟨4, 5, 6, 7, 8, 10⟩

def FeeSwitchPoolVer.mapping : FeeSwitchPoolVer → FeeSwitchDatumMapping
  | .v1 => feeSwitchMapping
  | .v2 => feeSwitchMapping
  | .biDirV1 => feeSwitchBidirectionalMapping

def FeeSwitchPoolConfig.tryFromPd (m : FeeSwitchDatumMapping) (pd : PlutusData) :
    Option FeeSwitchPoolConfig := do
  let poolNft ← pd.fieldAsset 0
  let assetX ← pd.fieldAsset 1
  let assetY ← pd.fieldAsset 2
  let assetLq ← pd.fieldAsset 3
  let lpFeeNumX ← pd.fieldU64 m.lpFeeNumX
  let lpFeeNumY ← pd.fieldU64 m.lpFeeNumY
  let treasuryFeeNum ← pd.fieldU64 m.treasuryFeeNum
  let treasuryX ← pd.fieldU64 m.treasuryX
  let treasuryY ← pd.fieldU64 m.treasuryY
  return ⟨poolNft, assetX, assetY, assetLq, lpFeeNumX, lpFeeNumY, treasuryFeeNum, treasuryX,
    treasuryY, (pd.fieldU64 m.lqLowerBound).getD 0⟩

namespace PoolContext

def feeSwitchScripts (ctx : PoolContext) : List (FeeSwitchPoolVer × DeployedScriptInfo) :=
  [(.v1, ctx.constFnPoolFeeSwitch), (.v2, ctx.constFnPoolFeeSwitchV2),
    (.biDirV1, ctx.constFnPoolFeeSwitchBiDirFee)]

def feeSwitchMarginalCost (ctx : PoolContext) : FeeSwitchPoolVer → ExUnits
  | .v1 => ctx.constFnPoolFeeSwitch.marginalCost
  | .v2 => ctx.constFnPoolFeeSwitchV2.marginalCost
  | .biDirV1 => ctx.constFnPoolFeeSwitchBiDirFee.marginalCost

end PoolContext

namespace FeeSwitchPool

/-- There are reserves besides the treasury. -/
def admitted (p : FeeSwitchPool) : Bool :=
  (0 < wrapSub p.reservesX p.treasuryX && 0 < wrapSub p.reservesY p.treasuryY) &&
    (p.treasuryX < p.reservesX && p.treasuryY < p.reservesY)

def tryFromLedger (ctx : PoolContext) (out : TransactionOutput) : Option FeeSwitchPool := do
  let ver ← versionOf ctx.feeSwitchScripts out.address
  let conf ← out.pd.bind (FeeSwitchPoolConfig.tryFromPd ver.mapping)
  let held ← heldReserves out.value conf.assetX conf.assetY conf.assetLq
  let id ← conf.poolNft.intoToken
  let p : FeeSwitchPool := {
    id, ver
    reservesX := held.reservesX
    reservesY := held.reservesY
    liquidity := held.reservesLq
    assetX := conf.assetX
    assetY := conf.assetY
    assetLq := conf.assetLq
    lpFeeX := ⟨conf.lpFeeNumX, feeDen⟩
    lpFeeY := ⟨conf.lpFeeNumY, feeDen⟩
    treasuryFee := ⟨conf.treasuryFeeNum, feeDen⟩
    treasuryX := conf.treasuryX
    treasuryY := conf.treasuryY
    lqLowerBound := conf.lqLowerBound
    marginalCost := ctx.feeSwitchMarginalCost ver
    bounds := ctx.poolValidation
    nonce := 0
    stakePartScriptHash := out.address.stakePart }
  if p.admitted && sufficientLovelace ctx.poolValidation conf.assetX conf.assetY out.value then
    return p
  else none

/-- The writer puts the treasuries at the same positions for every version. -/
def datumUpdates (p : FeeSwitchPool) : List (ℕ × PlutusData) :=
  [(6, .ofU64 p.treasuryX), (7, .ofU64 p.treasuryY)]

def intoLedger (p : FeeSwitchPool) (immut : ImmutablePoolUtxo) : Exec TransactionOutput := do
  let value ← lqPoolValue p.assetX p.assetY p.assetLq p.id
    ⟨p.reservesX, p.reservesY, p.liquidity⟩ immut.value
  let datum ← immut.updateDatum p.datumUpdates
  return ⟨immut.addressWith p.stakePartScriptHash, value, datum, immut.scriptReference⟩

end FeeSwitchPool

/-! ## Pools with royalties -/

structure RoyaltyPoolConfig where
  poolNft : AssetClass
  assetX : AssetClass
  assetY : AssetClass
  assetLq : AssetClass
  lpFeeNum : ℕ
  treasuryFeeNum : ℕ
  firstRoyaltyFeeNum : ℕ
  treasuryX : ℕ
  treasuryY : ℕ
  firstRoyaltyX : ℕ
  firstRoyaltyY : ℕ
  adminAddress : ScriptHash
  treasuryAddress : ScriptHash
  firstRoyaltyPubKey : Ed25519PublicKey
  nonce : ℕ

structure SecondRoyalty where
  fee : Ratio
  royaltyX : ℕ
  royaltyY : ℕ
  pubKey : Ed25519PublicKey

structure RoyaltyPoolDatumMapping where
  lpFeeNum : ℕ
  treasuryFeeNum : ℕ
  firstRoyaltyFeeNum : ℕ
  treasuryX : ℕ
  treasuryY : ℕ
  firstRoyaltyX : ℕ
  firstRoyaltyY : ℕ
  adminAddress : ℕ
  treasuryAddress : ℕ
  firstRoyaltyPubKey : ℕ
  royaltyNonce : ℕ

def royaltyDatumMapping : RoyaltyPoolDatumMapping := ⟨4, 5, 6, 7, 8, 9, 10, 11, 12, 13, 14⟩

/-- Leaves out the second royalty: its fee at 7, its amounts at 12 and 13, its key at 17. -/
def royaltyV2DatumMapping : RoyaltyPoolDatumMapping := ⟨4, 5, 6, 8, 9, 10, 11, 14, 15, 16, 18⟩

def RoyaltyPoolVer.mapping : RoyaltyPoolVer → RoyaltyPoolDatumMapping
  | .v1 => royaltyDatumMapping
  | .v1LedgerFixed => royaltyDatumMapping
  | .v2 => royaltyV2DatumMapping

def adminScriptHash (pd : PlutusData) : Option ScriptHash := do
  let creds ← InlineCredential.listTryFromPd pd
  let cred ← creds.head?
  cred.credential.scriptHash

def RoyaltyPoolConfig.tryFromPd (m : RoyaltyPoolDatumMapping) (pd : PlutusData) :
    Option RoyaltyPoolConfig := do
  let adminAddress ← (pd.field m.adminAddress).bind adminScriptHash
  let poolNft ← pd.fieldAsset 0
  let assetX ← pd.fieldAsset 1
  let assetY ← pd.fieldAsset 2
  let assetLq ← pd.fieldAsset 3
  let lpFeeNum ← pd.fieldU64 m.lpFeeNum
  let treasuryFeeNum ← pd.fieldU64 m.treasuryFeeNum
  let firstRoyaltyFeeNum ← pd.fieldU64 m.firstRoyaltyFeeNum
  let treasuryX ← pd.fieldU64 m.treasuryX
  let treasuryY ← pd.fieldU64 m.treasuryY
  let firstRoyaltyX ← pd.fieldU64 m.firstRoyaltyX
  let firstRoyaltyY ← pd.fieldU64 m.firstRoyaltyY
  let treasuryAddress ← (pd.fieldBytes m.treasuryAddress).bind Bytes.fromRawBytes
  let firstRoyaltyPubKey ← (pd.fieldBytes m.firstRoyaltyPubKey).bind Bytes.fromRawBytes
  let nonce ← pd.fieldU64 m.royaltyNonce
  return ⟨poolNft, assetX, assetY, assetLq, lpFeeNum, treasuryFeeNum, firstRoyaltyFeeNum, treasuryX,
    treasuryY, firstRoyaltyX, firstRoyaltyY, adminAddress, treasuryAddress, firstRoyaltyPubKey,
    nonce⟩

namespace SecondRoyalty

/-- What pools of the first version have. -/
def none : SecondRoyalty := ⟨⟨0, 100⟩, 0, 0, Bytes.replicate 32 0⟩

def tryFromPdV2 (pd : PlutusData) : Option SecondRoyalty := do
  let feeNum ← pd.fieldU64 7
  let royaltyX ← pd.fieldU64 12
  let royaltyY ← pd.fieldU64 13
  let pubKey ← (pd.fieldBytes 17).bind Bytes.fromRawBytes
  return ⟨⟨feeNum, feeDen⟩, royaltyX, royaltyY, pubKey⟩

def tryFromPd : RoyaltyPoolVer → PlutusData → Option SecondRoyalty
  | .v1, _ => some SecondRoyalty.none
  | .v1LedgerFixed, _ => some SecondRoyalty.none
  | .v2, pd => tryFromPdV2 pd

end SecondRoyalty

namespace PoolContext

def royaltyScripts (ctx : PoolContext) : List (RoyaltyPoolVer × DeployedScriptInfo) :=
  [(.v1, ctx.royaltyPoolV1), (.v1LedgerFixed, ctx.royaltyPoolV1LedgerFixed),
    (.v2, ctx.royaltyPoolV2)]

def royaltyMarginalCost (ctx : PoolContext) : RoyaltyPoolVer → ExUnits
  | .v1 => ctx.royaltyPoolV1.marginalCost
  | .v1LedgerFixed => ctx.royaltyPoolV1LedgerFixed.marginalCost
  | .v2 => ctx.royaltyPoolV2.marginalCost

end PoolContext

namespace RoyaltyPool

/-- There are reserves besides the treasury and the royalties; the second royalty of the first
version is zero. -/
def admitted (p : RoyaltyPool) : Bool :=
  (0 < wrapSub (wrapSub (wrapSub p.reservesX p.treasuryX) p.firstRoyaltyX) p.secondRoyaltyX &&
    0 < wrapSub (wrapSub (wrapSub p.reservesY p.treasuryY) p.firstRoyaltyY) p.secondRoyaltyY) &&
  (wrapAdd (wrapAdd p.treasuryX p.firstRoyaltyX) p.secondRoyaltyX < p.reservesX &&
    wrapAdd (wrapAdd p.treasuryY p.firstRoyaltyY) p.secondRoyaltyY < p.reservesY)

def tryFromLedger (ctx : PoolContext) (out : TransactionOutput) : Option RoyaltyPool := do
  let ver ← versionOf ctx.royaltyScripts out.address
  let conf ← out.pd.bind (RoyaltyPoolConfig.tryFromPd ver.mapping)
  let second ← out.pd.bind (SecondRoyalty.tryFromPd ver)
  let held ← heldReserves out.value conf.assetX conf.assetY conf.assetLq
  let id ← conf.poolNft.intoToken
  let p : RoyaltyPool := {
    id, ver
    reservesX := held.reservesX
    reservesY := held.reservesY
    liquidity := held.reservesLq
    assetX := conf.assetX
    assetY := conf.assetY
    assetLq := conf.assetLq
    lpFee := ⟨conf.lpFeeNum, feeDen⟩
    treasuryFee := ⟨conf.treasuryFeeNum, feeDen⟩
    treasuryX := conf.treasuryX
    treasuryY := conf.treasuryY
    firstRoyaltyFee := ⟨conf.firstRoyaltyFeeNum, feeDen⟩
    secondRoyaltyFee := second.fee
    firstRoyaltyX := conf.firstRoyaltyX
    firstRoyaltyY := conf.firstRoyaltyY
    secondRoyaltyX := second.royaltyX
    secondRoyaltyY := second.royaltyY
    lqLowerBound := 0
    adminAddress := conf.adminAddress
    treasuryAddress := conf.treasuryAddress
    firstRoyaltyPubKey := conf.firstRoyaltyPubKey
    secondRoyaltyPubKey := second.pubKey
    marginalCost := ctx.royaltyMarginalCost ver
    bounds := ctx.poolValidation
    nonce := conf.nonce
    stakePartScriptHash := out.address.stakePart }
  if p.admitted && sufficientLovelace ctx.poolValidation conf.assetX conf.assetY out.value then
    return p
  else none

def secondUpdates (p : RoyaltyPool) : List (ℕ × PlutusData) :=
  match p.ver with
  | .v1 => []
  | .v1LedgerFixed => []
  | .v2 =>
    [(7, .ofU64 p.secondRoyaltyFee.numer), (12, .ofU64 p.secondRoyaltyX),
      (13, .ofU64 p.secondRoyaltyY)]

def datumUpdates (p : RoyaltyPool) : List (ℕ × PlutusData) :=
  [(p.ver.mapping.lpFeeNum, .ofU64 p.lpFee.numer),
    (p.ver.mapping.treasuryFeeNum, .ofU64 p.treasuryFee.numer),
    (p.ver.mapping.firstRoyaltyFeeNum, .ofU64 p.firstRoyaltyFee.numer),
    (p.ver.mapping.treasuryX, .ofU64 p.treasuryX),
    (p.ver.mapping.treasuryY, .ofU64 p.treasuryY),
    (p.ver.mapping.firstRoyaltyX, .ofU64 p.firstRoyaltyX),
    (p.ver.mapping.firstRoyaltyY, .ofU64 p.firstRoyaltyY),
    (p.ver.mapping.adminAddress, InlineCredential.listIntoPd [⟨.script p.adminAddress⟩]),
    (p.ver.mapping.treasuryAddress, .bytes p.treasuryAddress.bytes),
    (p.ver.mapping.royaltyNonce, .ofU64 p.nonce)] ++ p.secondUpdates

def intoLedger (p : RoyaltyPool) (immut : ImmutablePoolUtxo) : Exec TransactionOutput := do
  let value ← lqPoolValue p.assetX p.assetY p.assetLq p.id
    ⟨p.reservesX, p.reservesY, p.liquidity⟩ immut.value
  let datum ← immut.updateDatum p.datumUpdates
  return ⟨immut.addressWith p.stakePartScriptHash, value, datum, immut.scriptReference⟩

end RoyaltyPool

/-! ## Weighted pools -/

def adaWeight : ℕ := 1

def tokenWeight : ℕ := 4

structure BalancePoolConfig where
  poolNft : AssetClass
  assetX : AssetClass
  assetY : AssetClass
  assetLq : AssetClass
  lpFeeNum : ℕ
  treasuryFeeNum : ℕ
  treasuryX : ℕ
  treasuryY : ℕ

def BalancePoolConfig.tryFromPd (pd : PlutusData) : Option BalancePoolConfig := do
  let poolNft ← pd.fieldAsset 0
  let assetX ← pd.fieldAsset 1
  let assetY ← pd.fieldAsset 2
  let assetLq ← pd.fieldAsset 3
  let lpFeeNum ← pd.fieldU64 4
  let treasuryFeeNum ← pd.fieldU64 5
  let treasuryX ← pd.fieldU64 6
  let treasuryY ← pd.fieldU64 7
  return ⟨poolNft, assetX, assetY, assetLq, lpFeeNum, treasuryFeeNum, treasuryX, treasuryY⟩

def PoolContext.balanceScripts (ctx : PoolContext) : List (BalancePoolVer × DeployedScriptInfo) :=
  [(.v1, ctx.balanceFnPoolV1), (.v2, ctx.balanceFnPoolV2)]

namespace BalancePool

def tryFromLedger (ctx : PoolContext) (out : TransactionOutput) : Option BalancePool := do
  let ver ← versionOf ctx.balanceScripts out.address
  let conf ← out.pd.bind BalancePoolConfig.tryFromPd
  let held ← heldReserves out.value conf.assetX conf.assetY conf.assetLq
  let id ← conf.poolNft.intoToken
  if sufficientLovelace ctx.poolValidation conf.assetX conf.assetY out.value then
    return {
      id, ver
      reservesX := held.reservesX
      weightX := adaWeight
      reservesY := held.reservesY
      weightY := tokenWeight
      liquidity := held.reservesLq
      assetX := conf.assetX
      assetY := conf.assetY
      assetLq := conf.assetLq
      lpFeeX := ⟨conf.lpFeeNum, feeDen⟩
      lpFeeY := ⟨conf.lpFeeNum, feeDen⟩
      treasuryFee := ⟨conf.treasuryFeeNum, feeDen⟩
      treasuryX := conf.treasuryX
      treasuryY := conf.treasuryY
      -- the cost of the first version for both
      marginalCost := ctx.balanceFnPoolV1.marginalCost
      minPoolLovelace := ctx.poolValidation.minN2tLovelace }
  else none

def datumUpdates (p : BalancePool) : List (ℕ × PlutusData) :=
  [(6, .ofU64 p.treasuryX), (7, .ofU64 p.treasuryY)]

def intoLedger (p : BalancePool) (immut : ImmutablePoolUtxo) : Exec TransactionOutput := do
  let value ← lqPoolValue p.assetX p.assetY p.assetLq p.id p.reserves immut.value
  let datum ← immut.updateDatum p.datumUpdates
  return ⟨immut.address, value, datum, immut.scriptReference⟩

end BalancePool

/-! ## Stable pools -/

structure StablePoolT2TConfig where
  poolNft : AssetClass
  an2n : ℕ
  assetX : AssetClass
  assetY : AssetClass
  multiplierX : ℕ
  multiplierY : ℕ
  assetLq : AssetClass
  lpFeeNum : ℕ
  treasuryFeeNum : ℕ
  treasuryX : ℕ
  treasuryY : ℕ

def StablePoolT2TConfig.tryFromPd (pd : PlutusData) : Option StablePoolT2TConfig := do
  let poolNft ← pd.fieldAsset 0
  let an2n ← pd.fieldU64 1
  let assetX ← pd.fieldAsset 2
  let assetY ← pd.fieldAsset 3
  let multiplierX ← pd.fieldU64 4
  let multiplierY ← pd.fieldU64 5
  let assetLq ← pd.fieldAsset 6
  let lpFeeNum ← pd.fieldU64 9
  let treasuryFeeNum ← pd.fieldU64 10
  let treasuryX ← pd.fieldU64 13
  let treasuryY ← pd.fieldU64 14
  return ⟨poolNft, an2n, assetX, assetY, multiplierX, multiplierY, assetLq, lpFeeNum,
    treasuryFeeNum, treasuryX, treasuryY⟩

def PoolContext.stableScripts (ctx : PoolContext) : List (StablePoolT2TVer × DeployedScriptInfo) :=
  [(.v1, ctx.stableFnPoolT2T)]

namespace StablePoolT2T

/-- There are reserves besides the treasury. -/
def admitted (p : StablePoolT2T) : Bool := p.treasuryX < p.reservesX && p.treasuryY < p.reservesY

def tryFromLedger (ctx : PoolContext) (out : TransactionOutput) : Option StablePoolT2T := do
  let ver ← versionOf ctx.stableScripts out.address
  let conf ← out.pd.bind StablePoolT2TConfig.tryFromPd
  let held ← heldReserves out.value conf.assetX conf.assetY conf.assetLq
  let id ← conf.poolNft.intoToken
  let p : StablePoolT2T := {
    id, ver
    an2n := conf.an2n
    reservesX := held.reservesX
    multiplierX := conf.multiplierX
    reservesY := held.reservesY
    multiplierY := conf.multiplierY
    liquidity := held.reservesLq
    assetX := conf.assetX
    assetY := conf.assetY
    assetLq := conf.assetLq
    lpFeeX := ⟨conf.lpFeeNum, feeDen⟩
    lpFeeY := ⟨conf.lpFeeNum, feeDen⟩
    treasuryFee := ⟨conf.treasuryFeeNum, feeDen⟩
    treasuryX := conf.treasuryX
    treasuryY := conf.treasuryY
    marginalCost := ctx.stableFnPoolT2T.marginalCost }
  if p.admitted && sufficientLovelace ctx.poolValidation conf.assetX conf.assetY out.value then
    return p
  else none

def datumUpdates (p : StablePoolT2T) : List (ℕ × PlutusData) :=
  [(13, .ofU64 p.treasuryX), (14, .ofU64 p.treasuryY)]

def intoLedger (p : StablePoolT2T) (immut : ImmutablePoolUtxo) : Exec TransactionOutput := do
  let value ← lqPoolValue p.assetX p.assetY p.assetLq p.id p.reserves immut.value
  let datum ← immut.updateDatum p.datumUpdates
  return ⟨immut.address, value, datum, immut.scriptReference⟩

end StablePoolT2T

/-! ## Quadratic pools -/

structure QuadraticPoolConfig where
  poolNft : AssetClass
  assetX : AssetClass
  assetY : AssetClass
  aNum : ℕ
  bNum : ℕ
  operatorPkh : Ed25519KeyHash
  xCapThr : ℕ
  accumulatedXFee : ℕ

/-- Pools of two tokens also keep their fee in the data. -/
def QuadraticPoolVer.accumulatedXFee : QuadraticPoolVer → PlutusData → Option ℕ
  | .v1, _ => some 0
  | .v1T2T, pd => pd.fieldU64 7

def QuadraticPoolVer.xFeeNum : QuadraticPoolVer → ℕ
  | .v1 => 0
  | .v1T2T => t2tFeeNum

def QuadraticPoolConfig.tryFromPd (ver : QuadraticPoolVer) (pd : PlutusData) :
    Option QuadraticPoolConfig := do
  let poolNft ← pd.fieldAsset 0
  let assetX ← pd.fieldAsset 1
  let assetY ← pd.fieldAsset 2
  let aNum ← pd.fieldU64 3
  let bNum ← pd.fieldU64 4
  let operatorPkh ← (pd.fieldBytes 5).bind Bytes.fromRawBytes
  let xCapThr ← pd.fieldU64 6
  let accumulatedXFee ← ver.accumulatedXFee pd
  return ⟨poolNft, assetX, assetY, aNum, bNum, operatorPkh, xCapThr, accumulatedXFee⟩

namespace PoolContext

section

variable (ctx : PoolContext) (id : Token)

def quadraticScripts : List (QuadraticPoolVer × DeployedScriptInfo) :=
  [(.v1, ctx.degenQuadraticPoolV1), (.v1T2T, ctx.degenQuadraticPoolV1T2T)]

def quadraticMarginalCost : QuadraticPoolVer → ExUnits
  | .v1 => ctx.degenQuadraticPoolV1.marginalCost
  | .v1T2T => ctx.degenQuadraticPoolV1T2T.marginalCost

def containsMint : Bool := ctx.mints.elim false (· id)

def capMetaKey : ℕ := 7

def capMetaValue : ℕ := 1

def isCapped : Bool :=
  (ctx.metadata.bind (· capMetaKey)).elim false fun
    | .uint value => value = capMetaValue
    | .other => false

end

end PoolContext

namespace QuadraticPool

/-- The cap is not reached. -/
def admitted (p : QuadraticPool) : Bool :=
  match p.ver with
  | .v1 => p.reservesX < p.capThr
  | .v1T2T => wrapSub p.reservesX p.accumulatedXFee < p.capThr

def tryFromLedger (ctx : PoolContext) (out : TransactionOutput) : Option QuadraticPool := do
  let ver ← versionOf ctx.quadraticScripts out.address
  let conf ← out.pd.bind (QuadraticPoolConfig.tryFromPd ver)
  let id ← conf.poolNft.intoToken
  let reservesY ← out.value.amountOf conf.assetY
  let p : QuadraticPool := {
    id, ver, reservesY
    reservesX := (out.value.amountOf conf.assetX).getD 0
    assetX := conf.assetX
    assetY := conf.assetY
    aNum := conf.aNum
    bNum := conf.bNum
    capThr := conf.xCapThr
    accumulatedXFee := conf.accumulatedXFee
    xFeeNum := ver.xFeeNum
    marginalCost := ctx.quadraticMarginalCost ver
    bounds := ctx.poolValidation
    virgin := ctx.containsMint id
    capped := ctx.isCapped }
  if conf.operatorPkh = ctx.operatorCred ∧ p.admitted then return p else none

/-- The data is left as it is. -/
def intoLedger (p : QuadraticPool) (immut : ImmutablePoolUtxo) : Exec TransactionOutput := do
  let value ← poolValue p.assetX p.assetY p.reservesX p.reservesY immut.value [(p.id, 1)]
  return ⟨immut.address, value, immut.datumOption, immut.scriptReference⟩

end QuadraticPool

end Splash.Cardano
