import Didux.Sport.Types

set_option autoImplicit false

namespace Didux.Signing

open Sport

structure TxContent where
  accountNonce : Nat
  price : Nat
  gasLimit : Nat
  recipient : Option Address
  amount : Nat
  payload : Bytes
deriving DecidableEq

inductive Signer where
  | frontier
  | homestead
  | eip155 (chainId : Nat)
deriving DecidableEq

inductive SigError where
  | invalidSig
  | invalidChainID
  | notRecovered

-- R and S stand together in `rs`. The last two fields are the caches of Hash and Sender.
structure Transaction (Rs : Type) where
  content : TxContent
  rs : Rs
  v : Nat
  hash : Option Hash
  sigCache : Option (Signer × Address)

-- rlpHash is over the six fields, with the chain id and two zeros where there is one. txHash is over all that is encoded.
structure Crypto (Key Digest Rs : Type) where
  rlpHash : TxContent → Option Nat → Digest
  txHash : TxContent → Rs → Nat → Hash
  sign : Digest → Key → Rs × Nat
  inRange : Rs → Bool → Bool
  ecrecover : Digest → Rs → Nat → Option Address
  address : Key → Address
  unsigned : Rs

structure Crypto.Lawful {Key Digest Rs : Type} (crypto : Crypto Key Digest Rs) : Prop where
  parity : ∀ digest key, (crypto.sign digest key).2 ≤ 1
  inRange : ∀ digest key homestead, crypto.inRange (crypto.sign digest key).1 homestead = true
  recovers : ∀ digest key,
    crypto.ecrecover digest (crypto.sign digest key).1 (crypto.sign digest key).2 = some (crypto.address key)
  others : ∀ digest other key v, digest ≠ other →
    crypto.ecrecover other (crypto.sign digest key).1 v ≠ some (crypto.address key)
  separates : ∀ content, Function.Injective (crypto.rlpHash content)

def byte (n : Nat) : Nat := n % 256

def isProtectedV (v : Nat) : Bool := if v.size ≤ 8 then !(uint64 v = 27 ∨ uint64 v = 28) else true

def deriveChainId (v : Nat) : Nat :=
  if v.size ≤ 64 then if uint64 v = 27 ∨ uint64 v = 28 then 0 else uint64 (uint64 v + 2 ^ 64 - 35) / 2
  else (v - 35) / 2

section Transactions

variable {Key Digest Rs : Type} (crypto : Crypto Key Digest Rs)

namespace Transaction

variable (tx : Transaction Rs)

def isVault : Bool := uint64 tx.v = 37 ∨ uint64 tx.v = 38

def setVault : Transaction Rs :=
  if tx.isVault then tx else if int64 tx.v = 28 then { tx with v := 38 } else { tx with v := 37 }

def currentHash : Hash := tx.hash.getD (crypto.txHash tx.content tx.rs tx.v)

end Transaction

def recoverByte (vb : Int) (isVault : Bool) : Nat := byte (uint64 (uint64 vb.natAbs + 2 ^ 64 - if isVault then 37 else 27))

def recoverPlain (sighash : Digest) (rs : Rs) (vb : Int) (homestead isVault : Bool) : Except SigError Address :=
  let v := recoverByte vb isVault
  if 8 < vb.natAbs.size ∨ ¬ ((v = 0 ∨ v = 1) ∧ crypto.inRange rs homestead) then .error .invalidSig
  else (crypto.ecrecover sighash rs v).elim (.error .notRecovered) .ok

namespace Signer

def hash : Signer → TxContent → Digest
  | .eip155 chainId, content => crypto.rlpHash content (some chainId)
  | _, content => crypto.rlpHash content none

-- The V of a signature whose last byte is `parity`.
def signatureValue (tx : Transaction Rs) (parity : Nat) : Signer → Nat
  | .eip155 chainId => if tx.isVault then byte (parity + 37)
    else if chainId ≠ 0 then byte (parity + 35) + chainId * 2 else byte (parity + 27)
  | _ => if tx.isVault then byte (parity + 37) else byte (parity + 27)

def sender (tx : Transaction Rs) : Signer → Except SigError Address
  | .frontier => recoverPlain crypto (crypto.rlpHash tx.content none) tx.rs tx.v false tx.isVault
  | .homestead => recoverPlain crypto (crypto.rlpHash tx.content none) tx.rs tx.v true tx.isVault
  | .eip155 chainId =>
    if tx.isVault ∨ !isProtectedV tx.v then recoverPlain crypto (crypto.rlpHash tx.content none) tx.rs tx.v true tx.isVault
    else if deriveChainId tx.v ≠ chainId then .error .invalidChainID
    else recoverPlain crypto (crypto.rlpHash tx.content (some chainId)) tx.rs (tx.v - chainId * 2 - 8) true tx.isVault

end Signer

def sender (signer : Signer) (tx : Transaction Rs) : Except SigError Address :=
  match tx.sigCache with
  | some (cached, addr) => if cached = signer then .ok addr else signer.sender crypto tx
  | none => signer.sender crypto tx

def signTx (tx : Transaction Rs) (signer : Signer) (key : Key) : Transaction Rs :=
  let sig := crypto.sign (signer.hash crypto tx.content) key
  ⟨tx.content, sig.1, signer.signatureValue tx sig.2, none, none⟩

end Transactions

section Laws

variable {Key Digest Rs : Type} {crypto : Crypto Key Digest Rs} (lawful : crypto.Lawful) (key : Key)

theorem sender_signed (tx : Transaction Rs) (signer s : Signer) :
    sender crypto s (signTx crypto tx signer key) = s.sender crypto (signTx crypto tx signer key) := rfl

include lawful in
theorem recover_plain_signed {digest : Digest} {vb : Int} {homestead isVault : Bool}
    (offset : vb = (crypto.sign digest key).2 + if isVault then 37 else 27) :
    recoverPlain crypto digest (crypto.sign digest key).1 vb homestead isVault = .ok (crypto.address key) := by
  have parity := lawful.parity digest key
  have small : vb.natAbs = (crypto.sign digest key).2 + if isVault then 37 else 27 := by
    split_ifs at offset ⊢ <;> omega
  have short : ¬ 8 < vb.natAbs.size := by
    rw [Nat.not_lt, Nat.size_le, small]
    split_ifs <;> omega
  have last : recoverByte vb isVault = (crypto.sign digest key).2 := by
    rw [recoverByte, small, byte, uint64, uint64]
    split_ifs <;> omega
  have bit : (crypto.sign digest key).2 = 0 ∨ (crypto.sign digest key).2 = 1 := by omega
  simp [recoverPlain, short, last, bit, lawful.inRange, lawful.recovers]

include lawful in
theorem recover_plain_foreign {digest other : Digest} (apart : digest ≠ other) (vb : Int) (homestead isVault : Bool) :
    recoverPlain crypto other (crypto.sign digest key).1 vb homestead isVault ≠ .ok (crypto.address key) := by
  intro recovered
  simp only [recoverPlain] at recovered
  split_ifs at recovered
  cases found : crypto.ecrecover other (crypto.sign digest key).1 (recoverByte vb isVault) with
  | none => simp [found] at recovered
  | some addr =>
    simp only [found, Option.elim_some, Except.ok.injEq] at recovered
    exact lawful.others _ _ _ _ apart (recovered ▸ found)

variable {tx : Transaction Rs} {chainId : Nat}

include lawful in
theorem signed_value (isPublic : tx.isVault = false) (large : 2 ≤ chainId) :
    (signTx crypto tx (.eip155 chainId) key).v = 35 + (crypto.sign (crypto.rlpHash tx.content (some chainId)) key).2 + chainId * 2 := by
  have parity := lawful.parity (crypto.rlpHash tx.content (some chainId)) key
  simp only [signTx, Signer.signatureValue, Signer.hash, isPublic, byte, Bool.false_eq_true, if_false]
  split_ifs <;> omega

-- The numbers from 39 on are free of those of vault transactions as long as they are not cut to 64 bits.
include lawful in
theorem signed_public_iff (isPublic : tx.isVault = false) (large : 2 ≤ chainId) :
    (signTx crypto tx (.eip155 chainId) key).isVault = false ↔ chainId % 2 ^ 63 ≠ 1 := by
  have parity := lawful.parity (crypto.rlpHash tx.content (some chainId)) key
  simp only [Transaction.isVault, signed_value lawful key isPublic large, uint64, decide_eq_false_iff_not]
  omega

theorem protected_of_large {v : Nat} (large : 39 ≤ v) : isProtectedV v = true := by
  unfold isProtectedV
  split_ifs with short
  · rw [Nat.size_le] at short
    have other : ¬ (uint64 v = 27 ∨ uint64 v = 28) := by
      rw [uint64]
      omega
    simp [other]
  · rfl

theorem derive_chain_id {parity : Nat} (bit : parity ≤ 1) (large : 2 ≤ chainId) :
    deriveChainId (35 + parity + chainId * 2) = chainId := by
  unfold deriveChainId
  split_ifs with short low
  · rw [uint64] at low
    rw [Nat.size_le] at short
    omega
  · rw [Nat.size_le] at short
    rw [uint64, uint64]
    omega
  · omega

theorem vault_sender (marked : tx.isVault = true) (signer : Signer) : signer.sender crypto tx =
      recoverPlain crypto (crypto.rlpHash tx.content none) tx.rs tx.v (signer ≠ .frontier) true := by
  cases signer <;> simp [Signer.sender, marked]

include lawful in
theorem marked_value (marked : tx.isVault = true) (signer : Signer) :
    (signTx crypto tx signer key).v = (crypto.sign (signer.hash crypto tx.content) key).2 + 37 := by
  have parity := lawful.parity (signer.hash crypto tx.content) key
  cases signer <;> simp only [signTx, Signer.signatureValue, marked, if_true, byte] <;> omega

theorem vault_of_value {parity : Nat} (bit : parity ≤ 1) (value : tx.v = parity + 37) : tx.isVault = true := by
  simp only [Transaction.isVault, value, uint64, decide_eq_true_eq]
  omega

include lawful in
theorem signed_marked_sender (marked : tx.isVault = true) {signer : Signer} (plain : ∀ c, signer ≠ .eip155 c) (s : Signer) :
    sender crypto s (signTx crypto tx signer key) = .ok (crypto.address key) := by
  have value := marked_value lawful key marked signer
  have vault := vault_of_value (lawful.parity (signer.hash crypto tx.content) key) value
  have digest : signer.hash crypto tx.content = crypto.rlpHash tx.content none := by
    cases signer with
    | eip155 c => exact absurd rfl (plain c)
    | _ => rfl
  rw [sender_signed, vault_sender vault]
  show recoverPlain crypto (crypto.rlpHash tx.content none) _ _ _ _ = _
  rw [← digest]
  refine recover_plain_signed lawful key ?_
  rw [value, if_pos rfl]
  push_cast
  rfl

end Laws

structure RoundTrip {Key Digest Rs : Type} (crypto : Crypto Key Digest Rs) (key : Key) (chainId : Nat) (signed : Transaction Rs) :
    Prop where
  isPublic : signed.isVault = false
  isProtected : isProtectedV signed.v = true
  derived : deriveChainId signed.v = chainId
  own : sender crypto (.eip155 chainId) signed = .ok (crypto.address key)
  foreign : ∀ other, 2 ≤ other → other ≠ chainId → sender crypto (.eip155 other) signed = .error .invalidChainID

-- The digest that was signed is the one a vault transaction is recovered over unless the signer put a chain id into it.
theorem signing_round_trip_iff {Key Digest Rs : Type} (crypto : Crypto Key Digest Rs) (lawful : crypto.Lawful) (key : Key)
    (chainId : Nat) (large : 2 ≤ chainId) (tx : Transaction Rs) :
    (tx.isVault = false → (RoundTrip crypto key chainId (signTx crypto tx (.eip155 chainId) key) ↔ chainId % 2 ^ 63 ≠ 1)) ∧
    (tx.isVault = true → ∀ signer, (signTx crypto tx signer key).isVault = true ∧
      (∀ s t, sender crypto s (signTx crypto tx signer key) = sender crypto t (signTx crypto tx signer key)) ∧
      ((∀ s, sender crypto s (signTx crypto tx signer key) = .ok (crypto.address key)) ↔ ∀ c, signer ≠ .eip155 c)) := by
  constructor
  · intro isPublic
    have value := signed_value lawful key isPublic large
    have bit := lawful.parity (crypto.rlpHash tx.content (some chainId)) key
    have free := signed_public_iff lawful key isPublic large
    refine ⟨fun trip => free.mp trip.isPublic, fun apart => ?_⟩
    have shown := free.mpr apart
    have guarded : isProtectedV (signTx crypto tx (.eip155 chainId) key).v = true := protected_of_large (by omega)
    have derived : deriveChainId (signTx crypto tx (.eip155 chainId) key).v = chainId := by
      rw [value]
      exact derive_chain_id bit large
    refine ⟨shown, guarded, derived, ?_, fun other _ different => ?_⟩
    · rw [sender_signed, Signer.sender, shown, guarded, derived, if_neg (by simp), if_neg (by simp)]
      show recoverPlain crypto (crypto.rlpHash tx.content (some chainId)) _ _ _ _ = _
      refine recover_plain_signed lawful key ?_
      rw [value, if_neg (by simp)]
      push_cast
      omega
    · rw [sender_signed, Signer.sender, shown, guarded, derived, if_neg (by simp), if_pos different.symm]
  · intro marked signer
    have bit := lawful.parity (signer.hash crypto tx.content) key
    have value := marked_value lawful key marked signer
    have vault := vault_of_value bit value
    have recovered : ∀ s, sender crypto s (signTx crypto tx signer key) =
        recoverPlain crypto (crypto.rlpHash tx.content none) (crypto.sign (signer.hash crypto tx.content) key).1
          (signTx crypto tx signer key).v true true := by
      intro s
      refine (vault_sender vault s).trans ?_
      simp [recoverPlain, signTx, lawful.inRange]
    refine ⟨vault, fun s t => by rw [recovered, recovered], fun all c same => ?_, signed_marked_sender lawful key marked⟩
    subst same
    have apart : crypto.rlpHash tx.content (some c) ≠ crypto.rlpHash tx.content none :=
      fun same => by cases lawful.separates _ same
    exact recover_plain_foreign lawful key apart _ _ _ ((recovered .homestead).symm.trans (all .homestead))

def plainCrypto : Crypto Address (TxContent × Option Nat) (Option ((TxContent × Option Nat) × Address)) where
  rlpHash content chainId := (content, chainId)
  txHash content _ v := BitVec.ofNat 256 (content.accountNonce + v)
  sign digest key := (some (digest, key), 0)
  inRange rs _ := rs.isSome
  ecrecover digest rs v := rs.bind fun signed => if signed.1 = digest ∧ v = 0 then some signed.2 else none
  address := id
  unsigned := none

theorem plain_lawful : plainCrypto.Lawful where
  parity _ _ := Nat.zero_le 1
  inRange _ _ _ := rfl
  recovers digest key := by simp [plainCrypto]
  others digest other key v apart := by simp [plainCrypto, apart]
  separates content a b same := (Prod.ext_iff.mp same).2

def payment : TxContent := ⟨0, 1, 21000, some 9, 0, []⟩

def unsignedTx {Key Digest Rs : Type} (crypto : Crypto Key Digest Rs) (content : TxContent) : Transaction Rs :=
  ⟨content, crypto.unsigned, 0, none, none⟩

theorem chain_two_round_trip : RoundTrip plainCrypto 5 2 (signTx plainCrypto (unsignedTx plainCrypto payment) (.eip155 2) 5) :=
  ((signing_round_trip_iff plainCrypto plain_lawful 5 2 (by decide) (unsignedTx plainCrypto payment)).1 rfl).mpr (by decide)

-- V is 2 ^ 64 + 37 for this chain id.
theorem large_chain_id_is_vault : (unsignedTx plainCrypto payment).isVault = false ∧
      (signTx plainCrypto (unsignedTx plainCrypto payment) (.eip155 (2 ^ 63 + 1)) 5).isVault = true ∧
      sender plainCrypto (.eip155 (2 ^ 63 + 1)) (signTx plainCrypto (unsignedTx plainCrypto payment) (.eip155 (2 ^ 63 + 1)) 5) =
        .error .invalidSig :=
  ⟨rfl, by decide +kernel, by rfl⟩

-- The arguments of a request after setDefaults. The recipients are nil where none are given.
structure SendTxArgs where
  content : TxContent
  sharedWith : Option (List String)

inductive RpcError where
  | readOnlyValueTransfer
  | vault
  | signerMismatch
  | notRecovered (err : SigError)

-- Where the key of an account is kept. An external signer has a chain id of its own.
inductive Wallet where
  | keystore
  | smartCard
  | external (chainID : Nat)
  | usb

-- postRaw exchanges the payload of a transaction for that of the vault.
structure Node where
  isEIP155 : Bool
  isHomestead : Bool
  chainID : Option Nat
  postRaw : Bytes → Except RpcError Bytes

def Node.makeSigner (node : Node) : Signer :=
  if node.isEIP155 then .eip155 (node.chainID.getD 0) else if node.isHomestead then .homestead else .frontier

inductive Path where
  | sendTransaction
  | signTransaction
  | resend
deriving DecidableEq

namespace Wallet

variable {Key Digest Rs : Type} (crypto : Crypto Key Digest Rs) (key : Key) (chainID : Option Nat) (tx : Transaction Rs)

def keystoreSignTx : Transaction Rs :=
  match chainID with
  | some chainId => if tx.isVault then signTx crypto tx .homestead key else signTx crypto tx (.eip155 chainId) key
  | none => signTx crypto tx .homestead key

-- The device signs the digest with the chain id if there is one. The check of the sender leaves it in the cache.
def usbSignTx : Except RpcError (Transaction Rs) :=
  let signer := chainID.elim .homestead .eip155
  let signed := Signing.signTx crypto tx signer key
  match signer.sender crypto signed with
  | .error err => .error (.notRecovered err)
  | .ok addr => if addr = crypto.address key then .ok { signed with sigCache := some (signer, addr) } else .error .signerMismatch

-- A card signs with the chain id 0 where it is given none. An external signer gets the arguments, without the mark.
def signTx : Wallet → Except RpcError (Transaction Rs)
  | .keystore => .ok (keystoreSignTx crypto key chainID tx)
  | .smartCard => .ok (Signing.signTx crypto tx (.eip155 (chainID.getD 0)) key)
  | .external chainId => .ok (Signing.signTx crypto (unsignedTx crypto tx.content) (.eip155 chainId) key)
  | .usb => usbSignTx crypto key chainID tx

def Keeps (wallet : Wallet) : Prop :=
  match wallet with
  | .keystore => chainID = none
  | .usb => True
  | _ => False

end Wallet

namespace Node

variable {Key Digest Rs : Type} (crypto : Crypto Key Digest Rs) (node : Node) (wallet : Wallet) (args : SendTxArgs) (key : Key)

def sign (tx : Transaction Rs) : Except RpcError (Transaction Rs) :=
  wallet.signTx crypto key (if node.isEIP155 && !tx.isVault then node.chainID else none) tx

def checkValue (isVault : Bool) (content : TxContent) : Except RpcError Unit :=
  if isVault && content.amount ≠ 0 then .error .readOnlyValueTransfer else .ok ()

def shared : Bool := 0 < (args.sharedWith.getD []).length

-- The value is checked again in SubmitTransaction.
def sendTransaction : Except RpcError (Transaction Rs) := do
  let isVault := args.sharedWith.isSome
  checkValue isVault args.content
  let payload ← if isVault then node.postRaw args.content.payload else pure args.content.payload
  let content := { args.content with payload := payload }
  checkValue (shared args) content
  let signed ← wallet.signTx crypto key (if node.isEIP155 && !isVault then node.chainID else none) (unsignedTx crypto content)
  let tx := if isVault then signed.setVault else signed
  checkValue isVault content
  return tx

def signTransaction : Except RpcError (Transaction Rs) := do
  checkValue (shared args) args.content
  let tx ← node.sign crypto wallet key (unsignedTx crypto args.content)
  let tx := if args.sharedWith.isSome then tx.setVault else tx
  checkValue args.sharedWith.isSome args.content
  return tx

def resend : Except RpcError (Transaction Rs) := do
  checkValue (shared args) args.content
  let newTx := unsignedTx crypto args.content
  node.sign crypto wallet key (if shared args then newTx.setVault else newTx)

def produce : Path → Except RpcError (Transaction Rs)
  | .sendTransaction => node.sendTransaction crypto wallet args key
  | .signTransaction => node.signTransaction crypto wallet args key
  | .resend => node.resend crypto wallet args key

-- The chain id that the wallet is given for a vault transaction.
def given : Path → Option Nat
  | .signTransaction => node.chainID
  | _ => none

end Node

section Marking

variable {Key Digest Rs : Type} {crypto : Crypto Key Digest Rs} (lawful : crypto.Lawful) (key : Key)

theorem set_vault_is_vault (tx : Transaction Rs) : tx.setVault.isVault = true := by
  unfold Transaction.setVault
  split_ifs with marked
  · exact marked
  · rfl
  · rfl

theorem set_vault_same (tx : Transaction Rs) :
    tx.setVault.content = tx.content ∧ tx.setVault.rs = tx.rs ∧ tx.setVault.hash = tx.hash ∧ tx.setVault.sigCache = tx.sigCache := by
  unfold Transaction.setVault
  split_ifs <;> exact ⟨rfl, rfl, rfl, rfl⟩

theorem set_vault_homestead {tx : Transaction Rs} {parity : Nat} (bit : parity ≤ 1) (value : tx.v = byte (parity + 27)) :
    tx.setVault.v = parity + 37 := by
  rw [byte, Nat.mod_eq_of_lt (by omega)] at value
  have isPublic : tx.isVault = false := by
    simp only [Transaction.isVault, value, uint64, decide_eq_false_iff_not]
    omega
  have low : int64 (parity + 27 : Nat) = (parity + 27 : Nat) := Int.bmod_eq_of_le (by omega) (by omega)
  rw [Transaction.setVault, isPublic, if_neg (by simp), value, low]
  split_ifs with odd
  · show 38 = _
    omega
  · show 37 = _
    omega

variable {digest : Digest} {tx signed : Transaction Rs} {chainID : Option Nat} {content : TxContent}

theorem sender_uncached {signer : Signer} (uncached : ∀ addr, tx.sigCache ≠ some (signer, addr)) :
    sender crypto signer tx = signer.sender crypto tx := by
  unfold sender
  split
  · next cached addr held =>
      rw [if_neg]
      rintro rfl
      exact uncached addr held
  · rfl

section Recovery

variable {signer : Signer} (uncached : ∀ addr, tx.sigCache ≠ some (signer, addr))

include lawful uncached

-- A signature over another digest than that without a chain id is not recovered to the account once the mark is set.
theorem foreign_sender (rs : tx.rs = (crypto.sign digest key).1) (apart : digest ≠ crypto.rlpHash tx.content none) :
    ¬ (tx.isVault = true ∧ sender crypto signer tx = .ok (crypto.address key)) := by
  rintro ⟨marked, own⟩
  rw [sender_uncached uncached, vault_sender marked, rs] at own
  exact recover_plain_foreign lawful key apart _ _ _ own

theorem own_sender (rs : tx.rs = (crypto.sign (crypto.rlpHash tx.content none) key).1)
    (value : tx.v = (crypto.sign (crypto.rlpHash tx.content none) key).2 + 37) :
    tx.isVault = true ∧ sender crypto signer tx = .ok (crypto.address key) := by
  have marked := vault_of_value (lawful.parity _ key) value
  refine ⟨marked, ?_⟩
  rw [sender_uncached uncached, vault_sender marked, rs]
  refine recover_plain_signed lawful key ?_
  rw [value, if_pos rfl]
  push_cast
  rfl

theorem homestead_then_vault (rs : tx.rs = (crypto.sign (crypto.rlpHash tx.content none) key).1)
    (value : tx.v = byte ((crypto.sign (crypto.rlpHash tx.content none) key).2 + 27)) :
    tx.setVault.isVault = true ∧ sender crypto signer tx.setVault = .ok (crypto.address key) := by
  obtain ⟨sameContent, sameRs, -, sameCache⟩ := set_vault_same tx
  refine own_sender lawful key (sameCache ▸ uncached) (sameContent ▸ sameRs.trans rs) ?_
  rw [sameContent]
  exact set_vault_homestead (lawful.parity _ key) value

theorem eip155_then_vault {c : Nat} (rs : tx.rs = (crypto.sign (crypto.rlpHash tx.content (some c)) key).1) :
    ¬ (tx.setVault.isVault = true ∧ sender crypto signer tx.setVault = .ok (crypto.address key)) := by
  obtain ⟨sameContent, sameRs, -, sameCache⟩ := set_vault_same tx
  refine foreign_sender lawful key (sameCache ▸ uncached) (sameRs.trans rs) ?_
  rw [sameContent]
  exact fun same => by cases lawful.separates _ same

end Recovery

theorem usb_signed (done : Wallet.usbSignTx crypto key chainID tx = .ok signed) :
    signed = { signTx crypto tx (chainID.elim .homestead .eip155) key with
      sigCache := some (chainID.elim .homestead .eip155, crypto.address key) } := by
  simp only [Wallet.usbSignTx] at done
  split at done
  · cases done
  · split_ifs at done with same
    rw [same] at done
    exact (Except.ok.inj done).symm

-- A mark that is set after the signature.
include lawful in
theorem set_after_iff {wallet : Wallet} (done : wallet.signTx crypto key chainID (unsignedTx crypto content) = .ok signed)
    {chain : Nat} (given : ∀ c, chainID = some c → c = chain) : signed.hash = none ∧
      (signed.setVault.isVault = true ∧ sender crypto (.eip155 chain) signed.setVault = .ok (crypto.address key) ↔
        wallet.Keeps chainID) := by
  cases wallet with
  | keystore =>
    obtain rfl := Except.ok.inj done
    cases chainID with
    | none => exact ⟨rfl, iff_of_true (homestead_then_vault lawful key nofun rfl rfl) rfl⟩
    | some c => exact ⟨rfl, iff_of_false (eip155_then_vault lawful key nofun rfl) nofun⟩
  | smartCard =>
    obtain rfl := Except.ok.inj done
    exact ⟨rfl, iff_of_false (eip155_then_vault lawful key nofun rfl) id⟩
  | external c =>
    obtain rfl := Except.ok.inj done
    exact ⟨rfl, iff_of_false (eip155_then_vault lawful key nofun rfl) id⟩
  | usb =>
    obtain rfl := usb_signed key done
    refine ⟨rfl, iff_of_true ?_ trivial⟩
    cases chainID with
    | none => exact homestead_then_vault lawful key nofun rfl rfl
    | some c =>
      obtain rfl := given c rfl
      refine ⟨set_vault_is_vault _, ?_⟩
      rw [sender, (set_vault_same _).2.2.2]
      exact if_pos rfl

-- A mark that is set before the signature.
include lawful in
theorem set_before_iff {wallet : Wallet} (marked : tx.isVault = true) (done : wallet.signTx crypto key none tx = .ok signed)
    {chain : Nat} :
    signed.hash = none ∧
      (signed.isVault = true ∧ sender crypto (.eip155 chain) signed = .ok (crypto.address key) ↔ wallet.Keeps none) := by
  have apart : ∀ c, crypto.rlpHash tx.content (some c) ≠ crypto.rlpHash tx.content none := fun c same => by cases lawful.separates _ same
  cases wallet with
  | keystore =>
    obtain rfl := Except.ok.inj done
    exact ⟨rfl, iff_of_true (own_sender lawful key nofun rfl (marked_value lawful key marked .homestead)) rfl⟩
  | smartCard =>
    obtain rfl := Except.ok.inj done
    exact ⟨rfl, iff_of_false (foreign_sender lawful key nofun rfl (apart 0)) id⟩
  | external c =>
    obtain rfl := Except.ok.inj done
    exact ⟨rfl, iff_of_false (foreign_sender lawful key nofun rfl (apart c)) id⟩
  | usb =>
    obtain rfl := usb_signed key done
    exact ⟨rfl, iff_of_true (own_sender lawful key nofun rfl (marked_value lawful key marked .homestead)) trivial⟩

end Marking

theorem current_hash_unset {Key Digest Rs : Type} {crypto : Crypto Key Digest Rs} {signed : Transaction Rs} (empty : signed.hash = none) :
    signed.currentHash crypto = crypto.txHash signed.content signed.rs signed.v := by
  rw [Transaction.currentHash, empty]
  rfl

theorem check_value_free {isVault : Bool} {content : TxContent} (free : content.amount = 0) :
    Node.checkValue isVault content = .ok () := by
  simp [Node.checkValue, free]

-- Every path refuses a shared transaction that moves a value.
theorem produced_free {Key Digest Rs : Type} {crypto : Crypto Key Digest Rs} {node : Node} {wallet : Wallet} {args : SendTxArgs}
    {recipient : String} {rest : List String} (recipients : args.sharedWith = some (recipient :: rest)) {key : Key} {path : Path}
    {tx : Transaction Rs} (produced : node.produce crypto wallet args key path = .ok tx) : args.content.amount = 0 := by
  by_contra valued
  cases path <;> simp [Node.produce, Node.sendTransaction, Node.signTransaction, Node.resend, Node.checkValue, Node.shared,
    recipients, valued, bind, Except.bind] at produced

def vaultNode : Node := ⟨true, true, some 2, .ok⟩

def vaultArgs : SendTxArgs := ⟨payment, some ["key"]⟩

end Didux.Signing
