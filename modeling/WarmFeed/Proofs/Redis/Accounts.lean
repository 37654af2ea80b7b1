import WarmFeed.Proofs.Precompute.Cycle
import WarmFeed.Proofs.Redis.Refinement
import WarmFeed.Redis.Accounts

/-!
# The accounts seen last

A cycle asks the sorted set of accounts for those up to a last rank, one below its limit.  The
rank is a signed word, and a negative rank counts from the other end.  So a limit that has no
signed word does not stand for all accounts: it leaves as many of them out as it is below the
number of words.
-/

namespace WarmFeed
namespace Redis
namespace Accounts

open SortedSet

/-! ## Ranks -/

/-- The subtraction overflows for one limit alone. -/
theorem lastRank_eq_iff {limit : Nat} (h : limit < 2 ^ 64) :
    lastRank limit = Int.bmod limit (2 ^ 64) - 1 ↔ limit ≠ 2 ^ 63 := by
  rw [lastRank, Int.bmod_def, Int.bmod_def]
  omega

theorem lastRank_eq {limit : Nat} (h : limit < 2 ^ 64) :
    lastRank limit = if limit ≤ 2 ^ 63 then (limit : Int) - 1 else limit - 1 - 2 ^ 64 := by
  rw [lastRank, Int.bmod_def]
  omega

/-- How many of so many accounts a limit reaches. -/
def reach (limit count : Nat) : Nat :=
  if limit ≤ 2 ^ 63 then min limit count else count - (2 ^ 64 - limit)

theorem reach_le {limit count : Nat} (h : limit < 2 ^ 64) (hcount : count < 2 ^ 63) :
    reach limit count ≤ limit := by
  unfold reach
  split <;> omega

theorem reach_eq_min_iff {limit count : Nat} (h : limit < 2 ^ 64) (hcount : count < 2 ^ 63) :
    reach limit count = min limit count ↔ limit ≤ 2 ^ 63 ∨ count = 0 := by
  unfold reach
  split <;> omega

theorem slice_lastRank {α : Type} {limit : Nat} (h : limit < 2 ^ 64) (hpos : 0 < limit)
    (l : List α) : slice 0 (lastRank limit) l = l.take (reach limit l.length) := by
  rw [lastRank_eq h, reach]
  by_cases hword : limit ≤ 2 ^ 63
  · have hrank : ((limit : Int) - 1) = ((limit - 1 : Nat) : Int) := by omega
    rw [if_pos hword, if_pos hword, hrank]
    refine (slice_nonneg 0 (limit - 1) l).trans ?_
    rw [List.drop_zero, Nat.sub_add_cancel hpos, ← List.take_take, List.take_length]
  · have hstop : ((l.length : Int) + (limit - 1 - 2 ^ 64) + 1).toNat =
        l.length - (2 ^ 64 - limit) := by
      omega
    simp only [slice]
    rw [if_neg hword, if_neg hword, if_neg (by omega), if_pos (by omega), hstop]
    rfl

/-! ## Accounts by the time they were seen -/

def accountText (account : AccountId) : String := toString account.toNat

structure Registers (ms : Table String Score) : Prop where
  distinct : ms.HasDistinctKeys
  isAccount : ∀ m ∈ ms.keys, ∃ account, accountText account = m
  isNumber : ∀ row ∈ ms.pairs, row.2.isNotANumber = false

/-- One account was seen before the other. -/
def SeenBefore (ms : Table String Score) (a b : AccountId) : Prop :=
  ∃ s t, ms.get? (accountText a) = some s ∧ ms.get? (accountText b) = some t ∧ s.below t = true

/-- So many of the accounts in the set, the latest first, and none of the others was seen later
than one of them. -/
structure SeenLast (ms : Table String Score) (count : Nat) (accounts : List AccountId) : Prop where
  length_eq : accounts.length = count
  nodup : accounts.Nodup
  registered : ∀ a ∈ accounts, accountText a ∈ ms.keys
  latest_first : accounts.Pairwise fun a b => ¬ SeenBefore ms a b
  latest : ∀ a ∈ accounts, ∀ b, b ∉ accounts → ¬ SeenBefore ms a b

theorem accountText_injective : Function.Injective accountText :=
  fun _ _ h => StoreKey.toString_toNat_inj h

theorem readAccount_accountText (account : AccountId) :
    readAccount (accountText account) = .ok account := by
  unfold readAccount accountText
  rw [parseWord_toString account.toNat_lt]
  exact congrArg Except.ok UInt64.ofNat_toNat

abbrev RowLe (a b : Row) : Prop :=
  a.2.signedMagnitude < b.2.signedMagnitude ∨
    a.2.signedMagnitude = b.2.signedMagnitude ∧ a.1 ≤ b.1

theorem RowLe.trans {a b c : Row} (hab : RowLe a b) (hbc : RowLe b c) : RowLe a c := by
  rcases hab with hab | ⟨hab, hab'⟩
  · left
    omega
  · rcases hbc with hbc | ⟨hbc, hbc'⟩
    · left
      omega
    · exact .inr ⟨hab.trans hbc, String.le_trans hab' hbc'⟩

theorem RowLe.total (a b : Row) : RowLe a b ∨ RowLe b a := by
  rcases lt_trichotomy a.2.signedMagnitude b.2.signedMagnitude with h | h | h
  · exact .inl (.inl h)
  · exact (String.le_total a.1 b.1).imp (fun hle => .inr ⟨h, hle⟩) fun hle => .inr ⟨h.symm, hle⟩
  · exact .inr (.inl h)

theorem notAfter_eq {a b : Row} (ha : a.2.isNotANumber = false) (hb : b.2.isNotANumber = false) :
    notAfter a b = decide (RowLe a b) := by
  rw [Bool.eq_iff_iff, decide_eq_true_eq, notAfter, Score.below_eq ha hb, Score.same_eq ha hb,
    Bool.or_eq_true, Bool.and_eq_true, decide_eq_true_eq, decide_eq_true_eq, decide_eq_true_eq,
    String.not_lt]

variable {ms : Table String Score}

theorem Registers.pairwise_rows (h : Registers ms) :
    (rows ms).Pairwise fun a b => b.2.below a.2 = false := by
  have hsort : ms.pairs.mergeSort (fun a b => decide (RowLe a b)) = rows ms := by
    have hsame := List.map_mergeSort (s := notAfter) (f := id) fun a ha b hb =>
      (notAfter_eq (h.isNumber a ha) (h.isNumber b hb)).symm
    rwa [List.map_id, List.map_id] at hsame
  rw [← hsort]
  refine (List.pairwise_mergeSort ?_ ?_ ms.pairs).imp fun {a b} hab => ?_
  · intro a b c hab hbc
    exact decide_eq_true ((of_decide_eq_true hab).trans (of_decide_eq_true hbc))
  · intro a b
    rw [Bool.or_eq_true, decide_eq_true_eq, decide_eq_true_eq]
    exact RowLe.total a b
  · have hle : RowLe a b := of_decide_eq_true hab
    rw [Score.below, Bool.and_eq_false_iff, decide_eq_false_iff_not]
    right
    omega

theorem Registers.get?_of_mem (h : Registers ms) {row : Row} (hrow : row ∈ (rows ms).reverse) :
    ms.get? row.1 = some row.2 := by
  rw [List.mem_reverse, rows, List.mem_mergeSort] at hrow
  exact h.distinct.mem_pairs_iff.mp hrow

/-- The names in the order of the rows, the latest first, are those of the set. -/
theorem reverse_names_perm (ms : Table String Score) :
    ((rows ms).reverse.map Prod.fst).Perm ms.keys :=
  ((List.reverse_perm _).trans (List.mergeSort_perm _ _)).map Prod.fst

theorem Registers.pairwise_names (h : Registers ms) :
    ((rows ms).reverse.map Prod.fst).Pairwise fun m m' =>
      ∀ s t, ms.get? m = some s → ms.get? m' = some t → s.below t = false := by
  have hrows : (rows ms).reverse.Pairwise fun a b => a.2.below b.2 = false :=
    List.pairwise_reverse.mpr h.pairwise_rows
  rw [List.pairwise_map]
  refine hrows.imp_of_mem fun {a b} ha hb hab s t hs ht => ?_
  rw [h.get?_of_mem ha] at hs
  rw [h.get?_of_mem hb] at ht
  rwa [Option.some.inj hs, Option.some.inj ht] at hab

/-- The accounts of the set, the latest first. -/
theorem Registers.exists_accounts (h : Registers ms) :
    ∃ accounts, (rows ms).reverse.map Prod.fst = accounts.map accountText ∧
      SeenLast ms ms.pairs.length accounts := by
  have hkeys := reverse_names_perm ms
  have hnames : (rows ms).reverse.map Prod.fst ∈ Set.range (List.map accountText) := by
    rw [Set.range_list_map]
    exact fun name hname => h.isAccount name (hkeys.mem_iff.mp hname)
  obtain ⟨accounts, haccounts⟩ := hnames
  have hordered := h.pairwise_names
  rw [← haccounts] at hkeys hordered
  have hmem : ∀ a, a ∈ accounts ↔ accountText a ∈ ms.keys := by
    intro a
    rw [← List.mem_map_of_injective accountText_injective, hkeys.mem_iff]
  refine ⟨accounts, haccounts.symm, ?_, ?_, fun a ha => (hmem a).mp ha, ?_, ?_⟩
  · have hlength := hkeys.length_eq
    rwa [List.length_map, Table.keys, List.length_map] at hlength
  · exact (hkeys.nodup_iff.mpr h.distinct).of_map _
  · rw [List.pairwise_map] at hordered
    refine hordered.imp fun hab hbefore => ?_
    obtain ⟨s, t, hs, ht, hbelow⟩ := hbefore
    rw [hab s t hs ht] at hbelow
    exact Bool.false_ne_true hbelow
  · rintro a - b hb ⟨s, t, -, ht, -⟩
    exact hb ((hmem b).mpr (Table.mem_keys_iff.mpr (by rw [ht]; rfl)))

theorem SeenLast.take {count : Nat} {accounts : List AccountId}
    (h : SeenLast ms count accounts) (k : Nat) : SeenLast ms (min k count) (accounts.take k) where
  length_eq := by rw [List.length_take, h.length_eq]
  nodup := h.nodup.sublist (List.take_sublist k accounts)
  registered a ha := h.registered a (List.mem_of_mem_take ha)
  latest_first := h.latest_first.sublist (List.take_sublist k accounts)
  latest a ha b hb := by
    by_cases hmem : b ∈ accounts
    · have hparts := h.latest_first
      rw [← List.take_append_drop k accounts, List.pairwise_append] at hparts
      rw [← List.take_append_drop k accounts, List.mem_append] at hmem
      exact hparts.2.2 a ha b (hmem.resolve_left hb)
    · exact h.latest a (List.mem_of_mem_take ha) b hmem

/-- What is read from the set. -/
theorem Registers.carryOut_active (h : Registers ms) {v : Server}
    (hms : v.members StoreKey.activeAccounts.text = .ok ms) {limit : Nat} (hlimit : limit < 2 ^ 64)
    (hcount : ms.pairs.length < 2 ^ 63) :
    ∃ accounts, carryOut v (active limit) = (.ok accounts, v) ∧
      SeenLast ms (reach limit ms.pairs.length) accounts := by
  obtain ⟨accounts, hnames, hseen⟩ := h.exists_accounts
  have hreach : min (reach limit ms.pairs.length) ms.pairs.length =
      reach limit ms.pairs.length := by
    unfold reach
    split <;> omega
  have htaken := hseen.take (reach limit ms.pairs.length)
  rw [hreach] at htaken
  refine ⟨_, ?_, htaken⟩
  unfold active
  by_cases hzero : limit = 0
  · rw [if_pos hzero, hzero]
    rfl
  · have hasked : carryOut v (ask (.zrevrange StoreKey.activeAccounts.text 0 (lastRank limit))) =
        (.ok ((accounts.take (reach limit ms.pairs.length)).map accountText), v) := by
      refine (Server.answer_zrevrange hms 0 (lastRank limit)).trans ?_
      have hlength : (rows ms).reverse.length = ms.pairs.length := by
        rw [List.length_reverse]
        exact List.length_mergeSort _
      rw [slice_lastRank hlimit (Nat.pos_of_ne_zero hzero), hlength, List.map_take, hnames,
        List.map_take]
    rw [if_neg hzero, carryOut_bind_ok hasked,
      mapM_decode readAccount accountText id readAccount_accountText, List.map_id]
    rfl

end Accounts
end Redis

/-! ## Cycles -/

/-- The registry of accounts is the sorted set of a server. -/
def Backend.ListsSeen {σ : Type} (answer : Backend σ) (server : σ → Redis.Server) : Prop :=
  ∀ s limit, (answer s (.activeAccounts limit)).1 =
    (Redis.carryOut (server s) (Redis.Accounts.active limit)).1.mapError .store

namespace Schedule

open Redis Redis.Accounts

/-- A cycle takes on the accounts seen last, the latest first, as far as its limit reaches: to
exactly as many as the limit says, or to all of them, if the limit is at most `2 ^ 63`.  Of the
accounts that there are a greater limit leaves out `2 ^ 64` less the limit. -/
theorem runCycle_reaches {σ : Type} {answer : Backend σ} {server : σ → Server}
    (h : Backend.ListsSeen answer server) (schedule : Schedule)
    (hlimit : schedule.maxAccounts < 2 ^ 64) {w : Worker}
    (hfeeds : (w.hasSource .home || w.hasSource .forYou) = true) (s : σ) {ms : Table String Score}
    (hms : (server ((refreshTrending w).run answer s).2).members StoreKey.activeAccounts.text =
      .ok ms)
    (hregisters : Registers ms) (hcount : ms.pairs.length < 2 ^ 63) :
    (∃ accounts, SeenLast ms (reach schedule.maxAccounts ms.pairs.length) accounts ∧
      subjectsMarked ((schedule.runCycle w true).course answer s) = takenOn w accounts ∧
      ((schedule.runCycle w true).run answer s).1.accountsRefreshed +
        ((schedule.runCycle w true).run answer s).1.accountsFailed = accounts.length ∧
      (accounts.length = min schedule.maxAccounts ms.pairs.length ↔
        schedule.maxAccounts ≤ 2 ^ 63 ∨ ms.pairs.length = 0)) ∧
      (lastRank schedule.maxAccounts = Int.bmod schedule.maxAccounts (2 ^ 64) - 1 ↔
        schedule.maxAccounts ≠ 2 ^ 63) := by
  obtain ⟨accounts, hactive, hseen⟩ := hregisters.carryOut_active hms hlimit hcount
  have hreach := reach_le hlimit hcount
  have hattempted : schedule.attempted w true (answer ((refreshTrending w).run answer s).2
      (.activeAccounts schedule.maxAccounts)).1 = accounts := by
    unfold attempted
    rw [h, hactive, hfeeds]
    exact List.take_of_length_le (hseen.length_eq.trans_le hreach)
  obtain ⟨hmarked, htotal⟩ := runCycle_takesOn answer schedule w true s hattempted
  refine ⟨⟨accounts, hseen, hmarked, htotal, ?_⟩, lastRank_eq_iff hlimit⟩
  rw [hseen.length_eq]
  exact reach_eq_min_iff hlimit hcount

def twoSeen : Table String Score := ⟨[("7", ⟨1⟩), ("8", ⟨2⟩)]⟩

def registry : Server := Server.empty.setMembers StoreKey.activeAccounts.text twoSeen

def listing : Backend Backend.Setting :=
  repeating unlucky fun limit => (carryOut registry (active limit)).1.mapError .store

theorem listsSeen_listing : Backend.ListsSeen listing fun _ => registry := fun _ _ => rfl

theorem members_registry : registry.members StoreKey.activeAccounts.text = .ok twoSeen := by
  rw [registry, Server.members_setMembers, if_pos rfl]

theorem runCycle_reaches_both :
    ∃ accounts, SeenLast twoSeen 2 accounts ∧
      subjectsMarked ((Schedule.default.runCycle Worker.homeWorker true).course listing .empty) =
        takenOn Worker.homeWorker accounts := by
  have hregisters : Registers twoSeen := by
    refine ⟨(by decide : ["7", "8"].Nodup), fun m hm => ?_, by decide⟩
    have hname : m = "7" ∨ m = "8" := by simpa [twoSeen, Table.keys] using hm
    rcases hname with rfl | rfl
    · exact ⟨7, rfl⟩
    · exact ⟨8, rfl⟩
  obtain ⟨⟨accounts, hseen, hmarked, -⟩, -⟩ := runCycle_reaches listsSeen_listing
    Schedule.default (by decide) (w := Worker.homeWorker) rfl .empty members_registry hregisters
    (by decide)
  exact ⟨accounts, hseen, hmarked⟩

/-- With the greatest limit a cycle leaves out the account that was seen first. -/
theorem runCycle_leaves_out_first :
    let schedule := { Schedule.default with maxAccounts := 2 ^ 64 - 1 }
    lastRank schedule.maxAccounts = -2 ∧ twoSeen.keys = [accountText 7, accountText 8] ∧
      subjectsMarked ((schedule.runCycle Worker.homeWorker true).course listing .empty) =
        [.account 8] := by
  intro schedule
  have hrank : lastRank schedule.maxAccounts = -2 := by decide
  refine ⟨hrank, rfl, ?_⟩
  have hrows : SortedSet.rows twoSeen = twoSeen.pairs := List.mergeSort_of_pairwise (by decide)
  have hasked : carryOut registry (ask (.zrevrange StoreKey.activeAccounts.text 0 (-2))) =
      (.ok ["8"], registry) := by
    refine (Server.answer_zrevrange members_registry 0 (-2)).trans ?_
    rw [hrows]
    rfl
  have hactive : carryOut registry (active schedule.maxAccounts) = (.ok [8], registry) := by
    unfold active
    rw [if_neg (by decide), hrank, carryOut_bind_ok hasked]
    rfl
  have hattempted : schedule.attempted Worker.homeWorker true
      (listing ((refreshTrending Worker.homeWorker).run listing .empty).2
        (.activeAccounts schedule.maxAccounts)).1 = [8] := by
    rw [listsSeen_listing, hactive]
    exact List.take_of_length_le (show 1 ≤ 2 ^ 64 - 1 by decide)
  exact (runCycle_takesOn listing schedule Worker.homeWorker true .empty hattempted).1

end Schedule
end WarmFeed
