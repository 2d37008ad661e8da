import Didux.Miner.Replay

set_option autoImplicit false

namespace Didux.Miner

open Sport Didux.Core List

-- The order container/heap keeps, of which a head and those below it are at `i`, `2 * i + 1` and `2 * i + 2`.
def PriceHeap.Ordered (heap : PriceHeap) : Prop :=
  ∀ heads i parent child, (heap.order heads)[i]? = some parent →
    ((heap.order heads)[2 * i + 1]? = some child ∨ (heap.order heads)[2 * i + 2]? = some child) → child.gasPrice ≤ parent.gasPrice

namespace Pending

inductive Op where
  | shift
  | pop
deriving DecidableEq

variable (accounts txs : List (Address × List Transaction)) (trace : List (Op × Transaction)) (t : Pending) (a b : Address) (op : Op)

def delete : List (Address × List Transaction) := txs.filter fun account => account.1 ≠ a

-- One account of NewTransactionsByPriceAndNonce. None is the index out of range in an empty list.
def add (t : Pending) : Address × List Transaction → Option Pending
  | (_, []) => none
  | (sender, tx :: rest) => let added : Pending := match tx.sender with
      | some acc => ⟨t.heads ++ [tx], (acc, rest) :: delete t.txs acc⟩
      | none => t
    some (if sender = tx.sender.getD 0 then added else { added with txs := delete added.txs sender })

-- The heap may order equal prices differently in each call.
def Built : Prop :=
  ∃ heap : PriceHeap, heap.Ordered ∧ ∃ made, accounts.foldlM add ⟨[], accounts⟩ = some made ∧ t = ⟨heap.order made.heads, made.txs⟩

def call (heap : PriceHeap) : Op → Pending
  | .shift => t.shift heap
  | .pop => t.pop heap

inductive Run (t : Pending) : List (Op × Transaction) → Pending → Prop where
  | start : Run t [] t
  | step {trace : List (Op × Transaction)} {op : Op} {best : Transaction} {before : Pending} {heap : PriceHeap} (run : Run t trace before)
      (peek : before.peek = some best) (ordered : heap.Ordered) : Run t (trace ++ [(op, best)]) (before.call heap op)

def queue : List Transaction := (txs.lookup a).getD []

def bySender (tx : Transaction) : Bool := tx.sender = some a

-- What was peeked of a sender before the given calls.
def peeked : List Transaction := ((trace.filter fun call => call.1 = op).map Prod.snd).filter (bySender a)

-- A map from senders to their transactions.
structure Grouped : Prop where
  distinct : (accounts.map Prod.fst).Nodup
  filled : ∀ account ∈ accounts, account.2 ≠ []
  own : ∀ account ∈ accounts, ∀ tx ∈ account.2, tx.sender = some account.1

-- The transactions of a sender in the order of its list: those that were shifted, its head or the one that was popped, and
-- those behind it.
structure Accounted (list : List Transaction) : Prop where
  whole : peeked trace a .shift ++ (t.heads.filter (bySender a) ++ peeked trace a .pop) ++ queue t.txs a = list
  single : (t.heads.filter (bySender a) ++ peeked trace a .pop).length ≤ 1
  ended : t.heads.filter (bySender a) ++ peeked trace a .pop = [] → queue t.txs a = []

structure Kept : Prop where
  each : ∀ account ∈ accounts, Accounted trace t account.1 account.2
  senders : ∀ head ∈ t.heads, ∃ account ∈ accounts, head.sender = some account.1
  sent : ∀ call ∈ trace, ∃ account ∈ accounts, call.2.sender = some account.1
  best : ∃ heap : PriceHeap, heap.Ordered ∧ ∃ elements, t.heads = heap.order elements

section Calls

variable {accounts txs trace t a b op} {heap : PriceHeap} {best tx : Transaction} {rest list elements : List Transaction}

theorem ordered_best (ordered : heap.Ordered) (heads : heap.order elements = best :: rest) :
    ∀ tx ∈ best :: rest, tx.gasPrice ≤ best.gasPrice := by
  have below : ∀ (i : Nat) (tx : Transaction), (best :: rest)[i]? = some tx → tx.gasPrice ≤ best.gasPrice := by
    intro i
    induction i using Nat.strongRecOn with
    | ind i ih =>
      intro tx found
      rcases Nat.eq_zero_or_pos i with rfl | positive
      · cases found
        exact Nat.le_refl _
      · -- the parent is at (i - 1) / 2
        obtain ⟨parent, above⟩ : ∃ parent, (best :: rest)[(i - 1) / 2]? = some parent := by
          have inside := (List.getElem?_eq_some_iff.mp found).1
          exact ⟨_, getElem?_eq_getElem (by omega)⟩
        have child : 2 * ((i - 1) / 2) + 1 = i ∨ 2 * ((i - 1) / 2) + 2 = i := by omega
        refine (ordered elements _ parent tx (heads ▸ above) ?_).trans (ih _ (by omega) parent above)
        rw [heads]
        exact child.imp (fun same => by rw [same]; exact found) (fun same => by rw [same]; exact found)
  intro tx member
  obtain ⟨i, found⟩ := mem_iff_getElem?.mp member
  exact below i tx found

theorem ordered_filter (single : (elements.filter (bySender a)).length ≤ 1) :
    (heap.order elements).filter (bySender a) = elements.filter (bySender a) := by
  have perm := (heap.perm elements).filter (bySender a)
  cases found : elements.filter (bySender a) with
  | nil => exact perm_nil.mp (found ▸ perm)
  | cons tx others =>
    rw [found] at single perm
    obtain rfl : others = [] := length_eq_zero_iff.mp (by simpa using single)
    exact perm_singleton.mp perm

theorem peeked_append {other : Op} : peeked (trace ++ [(other, best)]) a op =
    peeked trace a op ++ if other = op ∧ best.sender = some a then [best] else [] := by
  by_cases same : other = op <;> by_cases here : best.sender = some a <;> simp [peeked, bySender, same, here]

theorem queue_cons {account : Address × List Transaction} :
    queue (account :: txs) a = if account.1 = a then account.2 else queue txs a := by
  obtain ⟨c, list⟩ := account
  by_cases same : c = a
  · simp [queue, same]
  · simp [queue, lookup_cons, same, beq_false_of_ne (Ne.symm same)]

theorem queue_delete (different : a ≠ b) : queue (delete txs b) a = queue txs a := by
  induction txs with
  | nil => rfl
  | cons account txs ih =>
    by_cases same : account.1 = b
    · rw [queue_cons, if_neg (fun here => different (here.symm.trans same)), ← ih]
      simp [delete, same]
    · have kept : delete (account :: txs) b = account :: delete txs b := by simp [delete, same]
      rw [kept, queue_cons, queue_cons, ih]

variable (txs b) in
theorem next_spec : next b txs = none ∧ queue txs b = [] ∨
    ∃ tx later, next b txs = some (tx, later) ∧ queue txs b = tx :: queue later b ∧ ∀ a ≠ b, queue later a = queue txs a := by
  induction txs with
  | nil => exact .inl ⟨rfl, rfl⟩
  | cons account others ih =>
    obtain ⟨c, list⟩ := account
    by_cases same : c = b
    · subst same
      cases list with
      | nil => exact .inl ⟨by simp [next], by simp [queue_cons]⟩
      | cons tx later => exact .inr ⟨tx, (c, later) :: others, by simp [next], by simp [queue_cons],
          fun a other => by simp [queue_cons, other.symm]⟩
    · have deeper : next b ((c, list) :: others) = (next b others).map fun taken => (taken.1, (c, list) :: taken.2) := by
        cases list <;> simp [next, same]
      rcases ih with ⟨ended, empty⟩ | ⟨tx, later, taken, first, unchanged⟩
      · exact .inl ⟨by rw [deeper, ended]; rfl, by rw [queue_cons, if_neg same]; exact empty⟩
      · refine .inr ⟨tx, (c, list) :: later, by rw [deeper, taken]; rfl, ?_, fun a other => ?_⟩
        · rw [queue_cons, if_neg same, first, queue_cons, if_neg same]
        · rw [queue_cons, queue_cons, unchanged a other]

variable (t b op) in
-- What takes the place of the best head.
def follow : List Transaction := if op = .shift then (queue t.txs b).take 1 else []

theorem mem_follow (member : tx ∈ t.follow b op) : tx ∈ queue t.txs b := by
  rw [follow] at member
  split at member
  · exact mem_of_mem_take member
  · cases member

theorem call_follow (heap : PriceHeap) (op : Op) (peek : t.peek = some best) (theirs : best.sender = some b) :
    ∃ rest, t.heads = best :: rest ∧
    (t.call heap op).heads = heap.order (t.follow b op ++ rest) ∧
    ∀ a, queue (t.call heap op).txs a = if op = .shift ∧ a = b then (queue t.txs b).tail else queue t.txs a := by
  obtain ⟨rest, heads⟩ := head?_eq_some_iff.mp peek
  refine ⟨rest, heads, ?_⟩
  cases op with
  | pop => exact ⟨by simp [call, pop, follow, heads], by simp [call, pop]⟩
  | shift =>
    rcases next_spec t.txs b with ⟨ended, empty⟩ | ⟨tx, later, taken, first, unchanged⟩
    · have same : t.shift heap = t.pop heap := by simp [shift, heads, theirs, ended]
      refine ⟨by simp [call, same, pop, follow, heads, empty], fun a => ?_⟩
      by_cases here : a = b <;> simp [call, same, pop, here, empty]
    · have same : t.shift heap = ⟨heap.order (tx :: rest), later⟩ := by simp [shift, heads, theirs, taken]
      refine ⟨by simp [call, same, follow, first], fun a => ?_⟩
      by_cases here : a = b
      · simp [call, same, here, first]
      · simp [call, same, here, unchanged a here]

theorem accounted_mine (own : ∀ tx ∈ list, tx.sender = some a) (accounted : Accounted trace t a list) (peek : t.peek = some best)
    (mine : best.sender = some a) : Accounted (trace ++ [(op, best)]) (t.call heap op) a list := by
  obtain ⟨whole, single, _⟩ := accounted
  obtain ⟨rest, heads, after, queues⟩ := call_follow heap op peek mine
  have first : t.heads.filter (bySender a) = best :: rest.filter (bySender a) := by simp [heads, bySender, mine]
  rw [first] at whole single
  -- the head of a sender is its only one, and none of the sender was popped
  obtain ⟨none, unpopped⟩ : rest.filter (bySender a) = [] ∧ peeked trace a .pop = [] := by
    simpa using single
  have followed : (t.follow a op ++ rest).filter (bySender a) = t.follow a op := by
    rw [filter_append, none, append_nil, filter_eq_self]
    intro tx member
    simp [bySender, own tx (whole ▸ mem_append_right _ (mem_follow member))]
  have left : (t.call heap op).heads.filter (bySender a) = t.follow a op := by
    rw [after, ordered_filter (by rw [followed, follow]; split <;> simp), followed]
  cases op <;> cases list : queue t.txs a <;> constructor <;>
    simp [peeked_append, mine, left, follow, unpopped, list, queues, ← whole, none]

theorem accounted_other (behind : ∀ tx ∈ queue t.txs b, tx.sender = some b) (accounted : Accounted trace t a list)
    (peek : t.peek = some best)
    (theirs : best.sender = some b) (different : b ≠ a) : Accounted (trace ++ [(op, best)]) (t.call heap op) a list := by
  obtain ⟨whole, single, ended⟩ := accounted
  obtain ⟨rest, heads, after, queues⟩ := call_follow heap op peek theirs
  have same : ∀ op', peeked (trace ++ [(op, best)]) a op' = peeked trace a op' := fun op' => by simp [peeked_append, theirs, different]
  have followed : (t.follow b op ++ rest).filter (bySender a) = t.heads.filter (bySender a) := by
    have none : (t.follow b op).filter (bySender a) = [] := by
      refine filter_eq_nil_iff.mpr fun tx member => ?_
      simp [bySender, behind tx (mem_follow member), different]
    simp [none, heads, bySender, theirs, different]
  have one : (t.heads.filter (bySender a)).length ≤ 1 := by rw [length_append] at single; omega
  have left : (t.call heap op).heads.filter (bySender a) = t.heads.filter (bySender a) := by
    rw [after, ordered_filter (followed ▸ one), followed]
  have unchanged : queue (t.call heap op).txs a = queue t.txs a := by rw [queues, if_neg (fun both => different both.2.symm)]
  exact ⟨by rw [same, same, left, unchanged]; exact whole, by rw [same, left]; exact single,
    fun none => unchanged.trans (ended (by rw [← left, ← same]; exact none))⟩

theorem kept_call (own : ∀ account ∈ accounts, ∀ tx ∈ account.2, tx.sender = some account.1) (kept : Kept accounts trace t)
    (peek : t.peek = some best) (ordered : heap.Ordered) : Kept accounts (trace ++ [(op, best)]) (t.call heap op) := by
  obtain ⟨account, listed, mine⟩ := kept.senders best (mem_of_head? peek)
  obtain ⟨rest, heads, after, -⟩ := call_follow heap op peek mine
  have behind : ∀ tx ∈ queue t.txs account.1, tx.sender = some account.1 := fun tx member =>
    own account listed tx (by rw [← (kept.each account listed).whole]; exact mem_append_right _ member)
  refine ⟨fun other given => ?_, fun head member => ?_, fun call member => ?_, heap, ordered, _, after⟩
  · by_cases same : account.1 = other.1
    · exact accounted_mine (own other given) (kept.each other given) peek (mine.trans (congrArg some same))
    · exact accounted_other behind (kept.each other given) peek mine same
  · rw [after] at member
    rcases mem_append.mp ((heap.perm _).mem_iff.mp member) with next | old
    · exact ⟨account, listed, behind head (mem_follow next)⟩
    · exact kept.senders head (by simp [heads, old])
  · rcases mem_append.mp member with earlier | last
    · exact kept.sent call earlier
    · obtain rfl := mem_singleton.mp last
      exact ⟨account, listed, mine⟩

-- The loop of the constructor puts the first transaction of every account among the heads.
theorem built_heads : ∀ (accounts : List (Address × List Transaction)) (t : Pending), Grouped accounts →
    ∃ made, accounts.foldlM add t = some made ∧
      (∀ account ∈ accounts, made.heads.filter (bySender account.1) = t.heads.filter (bySender account.1) ++ account.2.take 1 ∧
        queue made.txs account.1 = account.2.tail) ∧
      (∀ a ∉ accounts.map Prod.fst, made.heads.filter (bySender a) = t.heads.filter (bySender a) ∧ queue made.txs a = queue t.txs a) ∧
      ∀ head ∈ made.heads, head ∈ t.heads ∨ ∃ account ∈ accounts, head.sender = some account.1
  | [], t, _ => ⟨t, by simp⟩
  | (a, []) :: _, _, given => absurd rfl (given.filled _ mem_cons_self)
  | (a, tx :: later) :: accounts, t, ⟨distinct, filled, own⟩ => by
    have mine : tx.sender = some a := own _ mem_cons_self tx mem_cons_self
    obtain ⟨fresh, distinct⟩ := nodup_cons.mp distinct
    obtain ⟨made, all, listed, unlisted, senders⟩ := built_heads accounts ⟨t.heads ++ [tx], (a, later) :: delete t.txs a⟩
      ⟨distinct, fun account member => filled account (mem_cons_of_mem _ member),
        fun account member => own account (mem_cons_of_mem _ member)⟩
    have elsewhere : ∀ b ≠ a, bySender b tx = false := fun b other => by simp [bySender, mine, other.symm]
    refine ⟨made, by simp [add, mine, all], ?_, fun b missing => ?_, fun head member => ?_⟩
    · intro account member
      rcases mem_cons.mp member with rfl | member
      · obtain ⟨filtered, left⟩ := unlisted a fresh
        exact ⟨by simp [filtered, bySender, mine], by simp [left, queue_cons]⟩
      · have other : account.1 ≠ a := fun same => fresh (mem_map.mpr ⟨account, member, same⟩)
        obtain ⟨filtered, left⟩ := listed account member
        exact ⟨by simp [filtered, elsewhere _ other], left⟩
    · have other : b ≠ a := fun same => missing (by simp [same])
      obtain ⟨filtered, left⟩ := unlisted b (fun member => missing (mem_cons_of_mem _ member))
      exact ⟨by simp [filtered, elsewhere b other], by rw [left, queue_cons, if_neg other.symm, queue_delete other]⟩
    · rcases senders head member with old | ⟨account, member, sent⟩
      · rcases mem_append.mp old with old | new
        · exact .inl old
        · obtain rfl := mem_singleton.mp new
          exact .inr ⟨_, mem_cons_self, mine⟩
      · exact .inr ⟨account, mem_cons_of_mem _ member, sent⟩

variable {start : Pending}

theorem built_kept (given : Grouped accounts) (built : Built accounts start) : Kept accounts [] start := by
  obtain ⟨heap, ordered, made, all, rfl⟩ := built
  obtain ⟨made', all', listed, -, senders⟩ := built_heads accounts ⟨[], accounts⟩ given
  obtain rfl : made = made' := Option.some.inj (all.symm.trans all')
  refine ⟨fun account member => ?_, fun head member => ?_, by simp, heap, ordered, _, rfl⟩
  · obtain ⟨first, later⟩ := listed account member
    obtain ⟨tx, rest, list⟩ := exists_cons_of_ne_nil (given.filled account member)
    have left : (heap.order made.heads).filter (bySender account.1) = [tx] := by
      rw [ordered_filter (by simp [first]), first]
      simp [list]
    constructor <;> simp [peeked, left, later, list]
  · exact (senders head ((heap.perm _).mem_iff.mp member)).resolve_left (by simp)

theorem run_kept (given : Grouped accounts) (built : Built accounts start) (run : Run start trace t) : Kept accounts trace t := by
  induction run with
  | start => exact built_kept given built
  | step _ peek ordered ih => exact kept_call given.own ih peek ordered

theorem run_size (run : Run start trace t) : trace.length + t.size = start.size := by
  induction run with
  | start => simp
  | @step trace op best before heap _ peek _ ih =>
    have taken : before.size = (before.call heap op).size + 1 := by
      cases op with
      | shift => exact size_perm _ before best (shift_perm heap before best peek)
      | pop => exact size_perm _ before best (pop_perm heap before best peek)
    rw [length_append, length_singleton]
    omega

variable (trace a) in
-- The transaction a sender is at, unless it was popped.
def nextOf (list : List Transaction) : Option Transaction :=
  if peeked trace a .pop = [] then (list.drop (peeked trace a .shift).length).head? else none

theorem accounted_next (accounted : Accounted trace t a list) : nextOf trace a list = (t.heads.filter (bySender a)).head? := by
  obtain ⟨whole, single, ended⟩ := accounted
  by_cases unpopped : peeked trace a .pop = []
  · rw [nextOf, ← whole, append_assoc, drop_left, unpopped]
    cases at' : t.heads.filter (bySender a) with
    | nil => simp [ended (by simp [at', unpopped])]
    | cons head others => rfl
  · have some := length_pos_iff.mpr unpopped
    rw [length_append] at single
    have none : t.heads.filter (bySender a) = [] := length_eq_zero_iff.mp (by omega)
    rw [nextOf, if_neg unpopped, none]
    rfl

theorem accounted_beginning (accounted : Accounted trace t a list) : peeked trace a .shift ++ peeked trace a .pop <+: list := by
  obtain ⟨whole, single, -⟩ := accounted
  rw [← whole]
  rcases eq_nil_or_concat' (peeked trace a .pop) with none | ⟨others, tx, popped⟩
  · rw [none, append_nil, append_assoc]
    exact prefix_append _ _
  · have none : t.heads.filter (bySender a) = [] := length_eq_zero_iff.mp (by simp [popped] at single; omega)
    rw [none]
    exact prefix_append _ _

end Calls

theorem sorted_heap : ∃ heap : PriceHeap, heap.Ordered := by
  refine ⟨⟨fun heads => heads.mergeSort fun x y => y.gasPrice ≤ x.gasPrice, fun heads => mergeSort_perm heads _⟩, ?_⟩
  intro heads i parent child above below
  have sorted : (heads.mergeSort fun x y => y.gasPrice ≤ x.gasPrice).Pairwise fun x y => y.gasPrice ≤ x.gasPrice :=
    (pairwise_mergeSort (fun _ _ _ => by simp only [decide_eq_true_eq]; omega)
      (fun _ _ => by simp only [Bool.or_eq_true, decide_eq_true_eq]; omega) heads).imp fun less => of_decide_eq_true less
  rcases below with below | below <;>
  · obtain ⟨_, rfl⟩ := List.getElem?_eq_some_iff.mp above
    obtain ⟨_, rfl⟩ := List.getElem?_eq_some_iff.mp below
    exact pairwise_iff_getElem.mp sorted _ _ _ _ (by omega)

theorem price_and_nonce_order (accounts : List (Address × List Transaction)) (given : Grouped accounts) :
    (∃ start, Built accounts start) ∧ ∀ start, Built accounts start → ∀ trace t, Run start trace t →
      trace.length + t.size = start.size ∧ (∀ call ∈ trace, ∃ account ∈ accounts, call.2.sender = some account.1) ∧
      (∀ best, t.peek = some best → (∃ account ∈ accounts, nextOf trace account.1 account.2 = some best) ∧
        ∀ account ∈ accounts, ∀ next, nextOf trace account.1 account.2 = some next → next.gasPrice ≤ best.gasPrice) ∧
      ∀ account ∈ accounts,
        peeked trace account.1 .shift ++ peeked trace account.1 .pop <+: account.2 ∧ (peeked trace account.1 .pop).length ≤ 1 ∧
        (t.peek = none → peeked trace account.1 .pop = [] → peeked trace account.1 .shift = account.2) := by
  constructor
  · obtain ⟨made, all, -⟩ := built_heads accounts ⟨[], accounts⟩ given
    obtain ⟨heap, ordered⟩ := sorted_heap
    exact ⟨_, heap, ordered, made, all, rfl⟩
  intro start built trace t run
  have kept := run_kept given built run
  refine ⟨run_size run, kept.sent, fun best peek => ⟨?_, ?_⟩, fun account listed => ?_⟩
  · obtain ⟨account, listed, mine⟩ := kept.senders best (mem_of_head? peek)
    obtain ⟨rest, heads⟩ := head?_eq_some_iff.mp peek
    exact ⟨account, listed, by simp [accounted_next (kept.each account listed), heads, bySender, mine]⟩
  · intro account listed next at'
    rw [accounted_next (kept.each account listed)] at at'
    obtain ⟨heap, ordered, elements, same⟩ := kept.best
    obtain ⟨rest, heads⟩ := head?_eq_some_iff.mp peek
    rw [heads] at same at'
    exact ordered_best ordered same.symm next (mem_of_mem_filter (mem_of_head? at'))
  · obtain ⟨whole, single, ended⟩ := kept.each account listed
    rw [length_append] at single
    refine ⟨accounted_beginning (kept.each account listed), by omega, fun done unpopped => ?_⟩
    have empty : t.heads = [] := head?_eq_none_iff.mp done
    simpa [empty, unpopped, ended (by simp [empty, unpopped])] using whole

def priced (sender : Address) (nonce gasPrice : Nat) : Transaction := ⟨0, some sender, none, nonce, gasPrice, 21000, 0, [], false, true⟩

def pair : List (Address × List Transaction) := [(1, [priced 1 0 5, priced 1 1 9]), (2, [priced 2 0 7])]

theorem pair_shifted : ∃ start, Built pair start ∧ ∀ trace t, Run start trace t → t.peek = none → peeked trace 1 .pop = [] →
    peeked trace 1 .shift = [priced 1 0 5, priced 1 1 9] := by
  obtain ⟨⟨start, built⟩, runs⟩ := price_and_nonce_order pair ⟨by decide, by simp [pair], by simp [pair, priced]⟩
  exact ⟨start, built, fun trace t run done unpopped => ((runs start built trace t run).2.2.2 _ mem_cons_self).2.2 done unpopped⟩

end Pending

end Didux.Miner
