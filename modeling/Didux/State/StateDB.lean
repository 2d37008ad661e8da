import Didux.Sport.Types

set_option autoImplicit false

namespace Didux.State

open Sport Function

-- The accrual of SmiloPay. The source computes it on big.Float: `round` is what an operation on floats of a precision
-- does to its exact result, `speed` is smiloSpeedBig of a balance and `maximum` is MaxSmiloPay.
structure Accrual where
  speed : Int → ℚ
  maximum : Int → Int
  round : Nat → ℚ → ℚ
  speed_nonneg : ∀ balance, 0 ≤ speed balance
  maximum_nonneg : ∀ balance, 0 ≤ maximum balance
  round_nonneg : ∀ precision q, 0 ≤ q → 0 ≤ round precision q

-- The precision that SetInt gives to a float.
def bigPrecision (n : Int) : Nat := max 64 (n.natAbs.log2 + 1)

-- An operation has the precision of the larger of its operands, and floatToBigInt sets 64 bits and truncates.
def Accrual.calculateSmiloPay (pay : Accrual) (prevBlock newBlock : Nat) (prevSmiloPay balance : Int) : Int :=
  if newBlock ≤ prevBlock then prevSmiloPay
  else
    let blockGap := newBlock - prevBlock
    let precision := max (bigPrecision blockGap) (bigPrecision (balance / 10 ^ 18))
    let smiloPayResult := pay.round precision (blockGap * pay.speed balance)
    let smiloPay := pay.round (max (bigPrecision prevSmiloPay) precision) (prevSmiloPay + smiloPayResult)
    if (pay.maximum balance : ℚ) < smiloPay ∨ smiloPay < prevSmiloPay then pay.maximum balance
    else (pay.round 64 smiloPay).num.tdiv (pay.round 64 smiloPay).den

def idleAccrual : Accrual where
  speed _ := 0
  maximum _ := 0
  round _ q := q
  speed_nonneg _ := le_refl 0
  maximum_nonneg _ := Int.le_refl 0
  round_nonneg _ _ positive := positive

-- An account as the trie holds it, with its code and its storage in place of their hashes.
structure Account where
  nonce : Nat
  balance : Int
  smiloPay : Int
  blockNumber : Nat
  code : Bytes
  storage : Hash → Hash

-- A live account. Its storage is what GetState reads, the dirty entries over the committed ones.
structure Object extends Account where
  committed : Hash → Hash
  suicided : Bool

def newObject : Object where
  nonce := 0
  balance := 0
  smiloPay := 0
  blockNumber := 0
  code := []
  storage := fun _ => 0
  committed := fun _ => 0
  suicided := false

def Object.load (data : Account) : Object := { data with committed := data.storage, suicided := false }

-- The hash of the code is that of the empty code only where the code is empty.
def Object.empty (o : Object) : Bool := o.nonce = 0 && o.balance = 0 && o.code = []

structure Log where
  address : Address
  topics : List Hash
  data : Bytes
  blockNumber : Nat
  txHash : Hash
  txIndex : Nat
  blockHash : Hash
  index : Nat
deriving DecidableEq, Repr

-- The accounts that getStateObject finds, and what is read of them.
abbrev Accounts := Address → Option Object

namespace Accounts

variable (accounts : Accounts) (a : Address)

def exist : Bool := (accounts a).isSome
def getBalance : Int := ((accounts a).map fun o => o.balance).getD 0
def getNonce : Nat := ((accounts a).map fun o => o.nonce).getD 0
def getCode : Bytes := ((accounts a).map fun o => o.code).getD []
def getState (key : Hash) : Hash := ((accounts a).map fun o => o.storage key).getD 0

def getSmiloPay (pay : Accrual) (accounts : Accounts) (a : Address) (blockNumber : Nat) : Int :=
  ((accounts a).map fun o => pay.calculateSmiloPay o.blockNumber blockNumber o.smiloPay o.balance).getD 0

end Accounts

inductive Change where
  | balance (prev : Int)
  | smiloPay (prev : Int)
  | block (prevSmiloPay : Int) (prevblock : Nat)
  | nonce (prev : Nat)
  | storage (key prevalue : Hash)
  | code (prevcode : Bytes)
  | suicide (prev : Bool) (prevbalance : Int)
  | touch

inductive Entry where
  | createObject (account : Address)
  | resetObject (account : Address) (prev : Object)
  | account (account : Address) (change : Change)
  | refund (prev : Nat)
  | addLog (txhash : Hash)
  | addPreimage (hash : Hash)

def Change.revert : Change → Object → Object
  | .balance prev, o => { o with balance := prev }
  | .smiloPay prev, o => { o with smiloPay := prev }
  | .block prevSmiloPay prevblock, o => { o with smiloPay := prevSmiloPay, blockNumber := prevblock }
  | .nonce prev, o => { o with nonce := prev }
  | .storage key prevalue, o => { o with storage := update o.storage key prevalue }
  | .code prevcode, o => { o with code := prevcode }
  | .suicide prev prevbalance, o => { o with suicided := prev, balance := prevbalance }
  | .touch, o => o

def Entry.dirtied : Entry → Option Address
  | .createObject a => some a
  | .account a _ => some a
  | .resetObject _ _ | .refund _ | .addLog _ | .addPreimage _ => none

-- `objects` are the live accounts, loaded or still in the trie. An account that Finalise deleted is kept apart in
-- `deleted`: only Commit looks at it again. The journal and the revisions have their newest entry first.
structure StateDB where
  trie : Address → Option Account
  objects : Accounts
  deleted : Address → Option Object
  dirtyObjects : Address → Bool
  refund : Nat
  thash : Hash
  bhash : Hash
  txIndex : Nat
  logs : Hash → List Log
  logSize : Nat
  preimages : Hash → Option Bytes
  entries : List Entry
  dirties : Address → Nat
  validRevisions : List (Nat × Nat)
  nextRevisionId : Nat

def ripemd : Address := 3

namespace StateDB

def new (trie : Address → Option Account) : StateDB where
  trie := trie
  objects a := (trie a).map Object.load
  deleted _ := none
  dirtyObjects _ := false
  refund := 0
  thash := 0
  bhash := 0
  txIndex := 0
  logs _ := []
  logSize := 0
  preimages _ := none
  entries := []
  dirties _ := 0
  validRevisions := []
  nextRevisionId := 0

def bump (dirties : Address → Nat) : Option Address → Address → Nat
  | none => dirties
  | some a => update dirties a (dirties a + 1)

def append (s : StateDB) (entry : Entry) : StateDB :=
  { s with entries := entry :: s.entries, dirties := bump s.dirties entry.dirtied }

variable (s : StateDB) (a : Address)

def modify (f : Object → Object) : StateDB :=
  { s with objects := update s.objects a ((s.objects a).map f) }

def write (change : Object → Change) (f : Object → Object) : StateDB :=
  match s.objects a with
  | none => s
  | some o => (s.append (.account a (change o))).modify a f

def createObject : StateDB :=
  let journaled := match s.objects a with
    | none => s.append (.createObject a)
    | some prev => s.append (.resetObject a prev)
  { journaled with objects := update s.objects a (some newObject), deleted := update s.deleted a none }

def getOrNewStateObject : StateDB :=
  match s.objects a with
  | none => s.createObject a
  | some _ => s

-- The balance of an account that was there is carried over.
def createAccount : StateDB :=
  (s.createObject a).modify a fun o => { o with balance := s.objects.getBalance a }

end StateDB

-- The methods of a state object, on the object that is live at an address.
namespace StateObject

variable (s : StateDB) (a : Address)

def touch : StateDB :=
  let touched := s.write a (fun _ => .touch) id
  if a = ripemd then { touched with dirties := StateDB.bump touched.dirties (some a) } else touched

def updateSmiloPay (pay : Accrual) (s : StateDB) (a : Address) (blockNumber : Nat) : StateDB :=
  s.write a (fun o => .block o.smiloPay o.blockNumber) fun o =>
    { o with smiloPay := pay.calculateSmiloPay o.blockNumber blockNumber o.smiloPay o.balance, blockNumber := blockNumber }

def setBalance (pay : Accrual) (s : StateDB) (a : Address) (amount : Int) (blockNumber : Nat) : StateDB :=
  (updateSmiloPay pay s a blockNumber).write a (fun o => .balance o.balance) fun o => { o with balance := amount }

def setSmiloPay (amount : Int) : StateDB :=
  s.write a (fun o => .smiloPay o.smiloPay) fun o => { o with smiloPay := amount }

def smiloPay : Int := ((s.objects a).map fun o => o.smiloPay).getD 0

def addBalance (pay : Accrual) (s : StateDB) (a : Address) (amount : Int) (blockNumber : Nat) : StateDB :=
  if amount = 0 then
    if (s.objects a).any Object.empty then touch s a else s
  else
    let updated := updateSmiloPay pay s a blockNumber
    setBalance pay updated a (updated.objects.getBalance a + amount) blockNumber

def addSmiloPay (amount : Int) : StateDB :=
  if amount = 0 then
    if (s.objects a).any Object.empty then touch s a else s
  else setSmiloPay s a (smiloPay s a + amount)

def subBalance (pay : Accrual) (s : StateDB) (a : Address) (amount : Int) (blockNumber : Nat) : StateDB :=
  if amount = 0 then s else setBalance pay s a (s.objects.getBalance a - amount) blockNumber

def subSmiloPay (pay : Accrual) (s : StateDB) (a : Address) (amount : Int) (blockNumber : Nat) : StateDB :=
  if amount = 0 then s
  else
    let updated := updateSmiloPay pay s a blockNumber
    setSmiloPay updated a (smiloPay updated a - amount)

def setNonce (nonce : Nat) : StateDB :=
  s.write a (fun o => .nonce o.nonce) fun o => { o with nonce := nonce }

def setCode (code : Bytes) : StateDB :=
  s.write a (fun o => .code o.code) fun o => { o with code := code }

def setState (key value : Hash) : StateDB :=
  if s.objects.getState a key = value then s
  else s.write a (fun o => .storage key (o.storage key)) fun o => { o with storage := update o.storage key value }

end StateObject

namespace StateDB

variable (pay : Accrual) (s : StateDB) (a : Address) (amount : Int) (blockNumber : Nat)

def addBalance : StateDB :=
  StateObject.addBalance pay (s.getOrNewStateObject a) a amount blockNumber

def subBalance : StateDB :=
  StateObject.subBalance pay (s.getOrNewStateObject a) a amount blockNumber

def subSmiloPay : StateDB :=
  StateObject.subSmiloPay pay (s.getOrNewStateObject a) a amount blockNumber

def addSmiloPay (s : StateDB) (a : Address) (amount : Int) : StateDB :=
  StateObject.addSmiloPay (s.getOrNewStateObject a) a amount

def setBalance : StateDB :=
  StateObject.setBalance pay (s.getOrNewStateObject a) a amount blockNumber

def setSmiloPay (s : StateDB) (a : Address) (amount : Int) : StateDB :=
  StateObject.setSmiloPay (s.getOrNewStateObject a) a amount

def updateSmiloPay (blockNumber : Nat) : StateDB :=
  StateObject.updateSmiloPay pay (s.getOrNewStateObject a) a blockNumber

def setNonce (s : StateDB) (a : Address) (nonce : Nat) : StateDB :=
  StateObject.setNonce (s.getOrNewStateObject a) a nonce

def setCode (s : StateDB) (a : Address) (code : Bytes) : StateDB :=
  StateObject.setCode (s.getOrNewStateObject a) a code

def setState (s : StateDB) (a : Address) (key value : Hash) : StateDB :=
  StateObject.setState (s.getOrNewStateObject a) a key value

def suicide (s : StateDB) (a : Address) : StateDB :=
  s.write a (fun o => .suicide o.suicided o.balance) fun o => { o with suicided := true, balance := 0 }

def addRefund (s : StateDB) (gas : Nat) : StateDB := { s.append (.refund s.refund) with refund := s.refund + gas }

-- The source panics where the counter would go below zero.
def subRefund (s : StateDB) (gas : Nat) : Option StateDB :=
  if s.refund < gas then none else some { s.append (.refund s.refund) with refund := s.refund - gas }

def addLog (s : StateDB) (address : Address) (topics : List Hash) (data : Bytes) (blockNumber : Nat) : StateDB :=
  let log : Log := ⟨address, topics, data, blockNumber, s.thash, s.txIndex, s.bhash, s.logSize⟩
  { s.append (.addLog s.thash) with logs := update s.logs s.thash (s.logs s.thash ++ [log]), logSize := s.logSize + 1 }

-- The first preimage of a hash stays.
def addPreimage (s : StateDB) (hash : Hash) (preimage : Bytes) : StateDB :=
  match s.preimages hash with
  | some _ => s
  | none => { s.append (.addPreimage hash) with preimages := update s.preimages hash (some preimage) }

def getLogs (s : StateDB) (hash : Hash) : List Log := s.logs hash

def prepare (s : StateDB) (thash bhash : Hash) (txIndex : Nat) : StateDB :=
  { s with thash := thash, bhash := bhash, txIndex := txIndex }

def drop (dirties : Address → Nat) : Option Address → Address → Nat
  | none => dirties
  | some a => update dirties a (dirties a - 1)

-- An account that was not live when it was created is not in the trie either, so it is not loaded again.
def undo (s : StateDB) : Entry → StateDB
  | .createObject a => { s with objects := update s.objects a none, dirtyObjects := update s.dirtyObjects a false }
  | .resetObject a prev => { s with objects := update s.objects a (some prev) }
  | .account a change => s.modify a change.revert
  | .refund prev => { s with refund := prev }
  | .addLog txhash =>
    { s with logs := update s.logs txhash (s.logs txhash).dropLast, logSize := s.logSize - 1 }
  | .addPreimage hash => { s with preimages := update s.preimages hash none }

-- Undo the newest entries of the journal, dropping the dirty tracking each induced.
def unwind : Nat → StateDB → StateDB
  | 0, s => s
  | n + 1, s => match s.entries with
    | [] => s
    | entry :: rest => unwind n { s.undo entry with entries := rest, dirties := drop s.dirties entry.dirtied }

def snapshot (s : StateDB) : Nat × StateDB :=
  (s.nextRevisionId,
    { s with nextRevisionId := s.nextRevisionId + 1, validRevisions := (s.nextRevisionId, s.entries.length) :: s.validRevisions })

-- The ids grow along the stack, so the search finds the revision with this id or none; newer ones are dropped with it.
def revertToSnapshot (s : StateDB) (revid : Nat) : Option StateDB :=
  match s.validRevisions.dropWhile fun revision => revid < revision.1 with
  | [] => none
  | (id, journalIndex) :: older =>
    if id ≠ revid then none else some { unwind (s.entries.length - journalIndex) s with validRevisions := older }

-- The copy has the objects that are dirty, as the journal or an earlier Finalise has it, and loads the others again.
def copy (s : StateDB) : StateDB :=
  let dirty a := s.dirtyObjects a || s.dirties a ≠ 0
  { new s.trie with
    objects := fun a => if dirty a then s.objects a else (s.trie a).map Object.load
    deleted := fun a => if dirty a then s.deleted a else none
    dirtyObjects := fun a => s.dirtyObjects a || (s.dirties a ≠ 0 && ((s.objects a).or (s.deleted a)).isSome)
    refund := s.refund
    logs := s.logs
    logSize := s.logSize
    preimages := s.preimages }

def clearJournalAndRefund (s : StateDB) : StateDB :=
  { s with entries := [], dirties := fun _ => 0, validRevisions := [], refund := 0 }

def removed (deleteEmptyObjects : Bool) (o : Object) : Bool := o.suicided || (deleteEmptyObjects && o.empty)

-- The dirty accounts that are live are deleted from the trie or written to it.
def finalise (s : StateDB) (deleteEmptyObjects : Bool) : StateDB :=
  let dirty a := if s.dirties a = 0 then none else s.objects a
  clearJournalAndRefund { s with
    trie := fun a => match dirty a with
      | none => s.trie a
      | some o => if removed deleteEmptyObjects o then none else some o.toAccount
    objects := fun a => match dirty a with
      | none => s.objects a
      | some o => if removed deleteEmptyObjects o then none else some { o with committed := o.storage }
    deleted := fun a => match dirty a with
      | none => s.deleted a
      | some o => if removed deleteEmptyObjects o then some o else none
    dirtyObjects := fun a => s.dirtyObjects a || (dirty a).isSome }

-- Commit passes over every object that was ever live, those that Finalise deleted included.
def commit (s : StateDB) (deleteEmptyObjects : Bool) : StateDB :=
  let dirty a := s.dirtyObjects a || s.dirties a ≠ 0
  let live a := (s.objects a).or (s.deleted a)
  let gone a (o : Object) := o.suicided || (dirty a && deleteEmptyObjects && o.empty)
  clearJournalAndRefund { s with
    trie := fun a => match live a with
      | none => s.trie a
      | some o => if gone a o then none else if dirty a then some o.toAccount else s.trie a
    objects := fun a => match s.objects a with
      | none => none
      | some o => if gone a o then none else if dirty a then some { o with committed := o.storage } else some o
    deleted := fun a => match live a with
      | none => none
      | some o => if gone a o then some o else s.deleted a
    dirtyObjects := fun a => dirty a && (live a).isNone }

end StateDB

end Didux.State
