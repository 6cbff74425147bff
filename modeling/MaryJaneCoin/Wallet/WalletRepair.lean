import MaryJaneCoin.Wallet.CommitRollback
import MaryJaneCoin.Wallet.WalletCheck

/-!
# What the repair of a wallet leaves

A repair settles every entry that it visits, and unsettles none: of the other entries it only
takes marks that the index does not have.  So a second repair finds nothing, if what the first
one removed is gone.
-/

namespace MaryJaneCoin

open Std StoredTx WalletMap CWalletState Option ExtTreeMap Bool

namespace RepairState

variable {H : Type} [Ord H] [TransOrd H] [LawfulEqOrd H] [DecidableEq H] {world : RepairWorld H}
  {fCheckOnly : Bool} {s s' : RepairState H} {key hash : H} {pcoin : StoredTx H} {i : Nat}

/-- The entries are stored under their hashes. -/
def Named (world : RepairWorld H) (s : RepairState H) : Prop :=
  ∀ key entry, info s.mapWallet key = some entry → entry.getHash world.toSha256 = key

/-- The entry is one that a repair removes. -/
def Erasable (world : RepairWorld H) (s : RepairState H) (key : H) : Prop :=
  ∃ pcoin, s.mapWallet[key]? = some pcoin ∧
    ((isConflicted world pcoin = true ∧ (Receives world s key pcoin ∨ Sends world s key pcoin)) ∨
      Orphaned world pcoin)

/-- A repair leaves the entry as it is. -/
def Settled (world : RepairWorld H) (key : H) (s : RepairState H) : Prop :=
  ∀ pcoin, s.mapWallet[key]? = some pcoin →
    if isConflicted world pcoin then
      ∃ nDebit, s.debit world key pcoin = some nDebit ∧ s.nDebitCached key = some nDebit ∧
        ¬Receives world s key pcoin ∧ ¬Sends world s key pcoin
    else
      ((world.readTxIndex (pcoin.getHash world.toSha256)).isNone &&
        !(pcoin.isCoinBase world.toSha256 || pcoin.isCoinStake world.toSha256)) = true ∨
      (¬Orphaned world pcoin ∧ ∀ output ∈ pcoin.vout.zipIdx,
        FlagFits world s key (world.readTxIndex (pcoin.getHash world.toSha256)) output)

/-- What the visit of an entry may do: the other entries keep all but marks that the index does
not have. -/
structure Visits (world : RepairWorld H) (s s' : RepairState H) (key : H) : Prop where
  own : info s'.mapWallet key = none ∨ info s'.mapWallet key = info s.mapWallet key
  info : ∀ other, other ≠ key → WalletMap.info s'.mapWallet other = WalletMap.info s.mapWallet other
  debit : ∀ other, other ≠ key → s'.nDebitCached other = s.nDebitCached other
  fewer : ∀ other i, other ≠ key → SpentAt s'.mapWallet other i → SpentAt s.mapWallet other i
  freed : ∀ other i, other ≠ key → SpentAt s.mapWallet other i →
    SpentAt s'.mapWallet other i ∨ FreeInIndex world s other i

section

omit [LawfulEqOrd H] [DecidableEq H]

theorem Visits.trans {t : RepairState H} (h : Visits world s s' key) (h' : Visits world s' t key) :
    Visits world s t key := by
  refine ⟨?_, fun other hne => (h'.info other hne).trans (h.info other hne),
    fun other hne => (h'.debit other hne).trans (h.debit other hne),
    fun other i hne hspent => h.fewer other i hne (h'.fewer other i hne hspent),
    fun other i hne hspent => ?_⟩
  · rcases h'.own with hnone | hsame
    · exact .inl hnone
    · rw [hsame]
      exact h.own
  · rcases h.freed other i hne hspent with hmid | hfree
    · exact (h'.freed other i hne hmid).imp id (freeInIndex_congr (h.info other hne)).mp
    · exact .inr hfree

theorem Visits.of_map (hmap : s'.mapWallet = s.mapWallet) (hdebit : ∀ other, other ≠ key →
    s'.nDebitCached other = s.nDebitCached other) : Visits world s s' key :=
  ⟨.inr (hmap ▸ rfl), fun _ _ => hmap ▸ rfl, hdebit, fun _ _ _ hspent => hmap ▸ hspent,
    fun _ _ _ hspent => .inl (hmap ▸ hspent)⟩

theorem Restores.visits (h : Restores world s s') : Visits world s s' key :=
  ⟨.inr (congrFun h.info key), fun other _ => congrFun h.info other,
    fun other _ => congrFun h.debit other, fun other i _ => h.fewer other i,
    fun other i _ => h.freed other i⟩

theorem Fixes.visits (h : Fixes s s' key) : Visits world s s' key :=
  ⟨.inr (congrFun h.info key), fun other _ => congrFun h.info other,
    fun other _ => congrFun h.debit other, fun other i hne => (h.others other i hne).mp,
    fun other i hne hspent => .inl ((h.others other i hne).mpr hspent)⟩

end

/-- What removing an entry leaves: it is gone, or the wallet has no file and nothing happens. -/
structure Removes (world : RepairWorld H) (s s' : RepairState H) (key : H) : Prop where
  visits : Visits world s s' key
  gone : world.fFileBacked = true → info s'.mapWallet key = none
  stays : world.fFileBacked = false → s' = s

omit [DecidableEq H] in
variable (world s key) in
/-- **Erasing an entry.** -/
theorem removes_eraseFromWallet : Removes world s (s.eraseFromWallet world key) key := by
  unfold eraseFromWallet
  split
  · rename_i hbacked
    exact ⟨.of_map rfl fun _ _ => rfl, fun h => by simp [h] at hbacked, fun _ => rfl⟩
  · rename_i hbacked
    split
    · have hother : ∀ other, other ≠ key → (s.mapWallet.erase key)[other]? = s.mapWallet[other]? := by
        intro other hne
        rw [getElem?_erase, if_neg (by simpa using hne.symm)]
      have hspent : ∀ other i, other ≠ key →
          (SpentAt (s.mapWallet.erase key) other i ↔ SpentAt s.mapWallet other i) := by
        intro other i hne
        rw [SpentAt, SpentAt, hother other hne]
      refine ⟨⟨.inl ?_, fun other hne => ?_, fun _ _ => rfl, fun other i hne => (hspent other i hne).mp,
        fun other i hne hbefore => .inl ((hspent other i hne).mpr hbefore)⟩, fun _ => ?_, fun h => ?_⟩
      · simp [WalletMap.info]
      · rw [WalletMap.info, WalletMap.info, hother other hne]
      · simp [WalletMap.info]
      · simp [h] at hbacked
    · rename_i hmissing
      refine ⟨.of_map rfl fun _ _ => rfl, fun _ => ?_, fun _ => rfl⟩
      rw [WalletMap.info, map_eq_none_iff]
      simpa using hmissing

/-- **What the visit of an entry comes to**: one that can be removed is removed or counted, and
any other is settled. -/
structure RepairsAt (world : RepairWorld H) (s s' : RepairState H) (key : H) : Prop where
  visits : Visits world s s' key
  keeps : world.fFileBacked = false → Keeps world s s'
  outcome : (Erasable world s key ∧ (world.fFileBacked = true → info s'.mapWallet key = none) ∧
      (world.fFileBacked = false →
        s.nMismatchFound < s'.nMismatchFound ∨ s.nOrphansFound < s'.nOrphansFound)) ∨
    (¬Erasable world s key ∧ Settled world key s')

theorem RepairsAt.of_removed {mid : RepairState H} {nValue : Int64} (herasable : Erasable world s key)
    (hvisits : Visits world s mid key) (hkeeps : Keeps world s mid) :
    RepairsAt world s (mid.removeConflicted world false key nValue) key := by
  have hremoves := removes_eraseFromWallet world (mid.mismatch nValue) key
  have hmismatch : Visits world mid (mid.mismatch nValue) key := .of_map rfl fun _ _ => rfl
  have hcounted : Keeps world mid (mid.mismatch nValue) :=
    .of_caches rfl rfl rfl (Nat.le_succ _) le_rfl
  refine ⟨hvisits.trans (hmismatch.trans hremoves.visits), fun hbacked => ?_,
    .inl ⟨herasable, hremoves.gone, fun hbacked => .inl ?_⟩⟩
  · rw [show mid.removeConflicted world false key nValue = _ from hremoves.stays hbacked]
    exact hkeeps.trans hcounted
  · rw [show mid.removeConflicted world false key nValue = _ from hremoves.stays hbacked]
    exact Nat.lt_succ_of_le hkeeps.mismatch

/-- **The visit of a conflicted transaction.** -/
theorem fixConflicted_repair (hpcoin : s.mapWallet[key]? = some pcoin)
    (hname : pcoin.getHash world.toSha256 = key) (hconflicted : isConflicted world pcoin = true)
    (h : s.fixConflicted world false key pcoin = .ok s') : RepairsAt world s s' key := by
  have hinfo : info s.mapWallet key = some pcoin.forgetFlags := by
    rw [info, hpcoin]
    rfl
  have hgeneration : ¬Orphaned world pcoin := by
    rintro ⟨hgeneration, -⟩
    simp [isConflicted, hgeneration] at hconflicted
  have herasable : Erasable world s key ↔ Receives world s key pcoin ∨ Sends world s key pcoin := by
    simp [Erasable, hpcoin, hconflicted, hgeneration]
  rcases fixConflicted_cases world false s key pcoin with ⟨-, hresult⟩ | ⟨nDebit, hdebit, hcases⟩
  · rw [hresult] at h
    cases h
  have hcached : Keeps world s (s.cacheDebit key nDebit) := keeps_cacheDebit hinfo hdebit
  have hcachedVisits : Visits world s (s.cacheDebit key nDebit) key :=
    .of_map rfl fun other hne => cacheDebit_of_ne hne nDebit
  rw [hname] at hcases
  rcases hcases with ⟨hreceives, nValue, hresult⟩ | ⟨-, -, hresult⟩ |
    ⟨hsends, nCredit, nValue, hcredit, hresult⟩ | ⟨hreceives, hsends, hresult⟩
  · cases hresult.symm.trans h
    exact .of_removed (herasable.mpr (.inl hreceives)) hcachedVisits hcached
  · cases hresult.symm.trans h
  · cases hresult.symm.trans h
    have hrestored := restores_foldl world pcoin.vin (s.cacheDebit key nDebit)
    have hkept := hcached.trans hrestored.keeps
    have hinfo' : info (pcoin.vin.foldl (restoreInput world) (s.cacheDebit key nDebit)).mapWallet
        key = some pcoin.forgetFlags := by
      rw [hkept.info, hinfo]
    have hcredit' : (pcoin.vin.foldl (restoreInput world) (s.cacheDebit key nDebit)).credit world
        key pcoin = some nCredit := by
      rw [credit, hrestored.credit]
      exact hcredit
    exact .of_removed (herasable.mpr (.inr hsends))
      ((hcachedVisits.trans hrestored.visits).trans (.of_map rfl fun _ _ => rfl))
      (hkept.trans (keeps_cacheCredit hinfo' hcredit'))
  · cases hresult.symm.trans h
    refine ⟨hcachedVisits, fun _ => hcached, .inr ⟨fun h => (herasable.mp h).elim hreceives hsends, ?_⟩⟩
    intro pcoin' hpcoin'
    cases hpcoin.symm.trans hpcoin'
    have hsame : (s.cacheDebit key nDebit).debit world key pcoin = s.debit world key pcoin :=
      hcached.debit key pcoin.forgetFlags hinfo
    rw [if_pos hconflicted]
    refine ⟨nDebit, hsame.trans hdebit, cacheDebit_self nDebit, ?_, ?_⟩
    · rw [Receives, hsame]
      exact hreceives
    · rw [Sends, hsame]
      exact hsends

/-- **The visit of an entry of the chain or of a generation.** -/
theorem fixCoins_repair (hpcoin : s.mapWallet[key]? = some pcoin)
    (hname : pcoin.getHash world.toSha256 = key) (hconflicted : isConflicted world pcoin = false) :
    RepairsAt world s (s.fixCoins world false key pcoin) key := by
  have herasable : Erasable world s key ↔ Orphaned world pcoin := by
    simp [Erasable, hpcoin, hconflicted]
  have houts : ∀ output ∈ pcoin.vout.zipIdx, pcoin.vout[output.2]? = some output.1 :=
    fun output hout => List.mem_zipIdx_iff_getElem?.mp hout
  obtain ⟨hfixes, hfits, -⟩ := foldl_fixOutput world
    (world.readTxIndex (pcoin.getHash world.toSha256)) hpcoin houts
  simp only [fixCoins, false_eq_true, if_false]
  rw [hname] at hfixes hfits ⊢
  generalize pcoin.vout.zipIdx.foldl (fixOutput world false key (world.readTxIndex key)) s = mid
    at hfixes hfits ⊢
  split
  · rename_i horphaned
    have horphaned : Orphaned world pcoin := by
      rw [and_eq_true, decide_eq_true_iff] at horphaned
      exact horphaned
    have hcounted : Keeps world mid { mid with nOrphansFound := mid.nOrphansFound + 1 } :=
      .of_caches rfl rfl rfl le_rfl (Nat.le_succ _)
    have hvisits : Visits world mid { mid with nOrphansFound := mid.nOrphansFound + 1 } key :=
      .of_map rfl fun _ _ => rfl
    have hremoves := removes_eraseFromWallet world
      { mid with nOrphansFound := mid.nOrphansFound + 1 } key
    refine ⟨hfixes.visits.trans (hvisits.trans hremoves.visits), fun hbacked => ?_,
      .inl ⟨herasable.mpr horphaned, hremoves.gone, fun hbacked => .inr ?_⟩⟩
    · rw [hremoves.stays hbacked]
      exact hfixes.keeps.trans hcounted
    · rw [hremoves.stays hbacked]
      exact Nat.lt_succ_of_le (Nat.le_of_eq hfixes.orphans.symm)
  · rename_i hcurrent
    have hcurrent : ¬Orphaned world pcoin := by
      rw [and_eq_true, decide_eq_true_iff] at hcurrent
      exact hcurrent
    refine ⟨hfixes.visits, fun _ => hfixes.keeps, .inr ⟨fun h => hcurrent (herasable.mp h), ?_⟩⟩
    intro pcoin' hpcoin'
    have hforget : pcoin'.forgetFlags = pcoin.forgetFlags := by
      have hinfo := congrFun hfixes.info key
      rw [info, info, hpcoin, hpcoin'] at hinfo
      exact Option.some.inj hinfo
    rw [eq_of_forgetFlags hforget]
    rw [if_neg (show ¬isConflicted world { pcoin with vfSpent := pcoin'.vfSpent } = true from
      eq_false_iff.mp hconflicted)]
    refine .inr ⟨hcurrent, ?_⟩
    show ∀ output ∈ pcoin.vout.zipIdx,
      FlagFits world mid key (world.readTxIndex (pcoin.getHash world.toSha256)) output
    rwa [hname]

/-- **One visit of a repair.** -/
theorem fixCoin_repair (hnamed : Named world s) (h : fixCoin world false s key = .ok s') :
    RepairsAt world s s' key := by
  unfold fixCoin at h
  split at h
  · cases h
  · rename_i pcoin hpcoin
    have hname : pcoin.getHash world.toSha256 = key := by
      refine hnamed key pcoin.forgetFlags ?_
      rw [info, hpcoin]
      rfl
    split at h
    · rename_i hconflicted
      exact fixConflicted_repair hpcoin hname hconflicted h
    · rename_i hconflicted
      have hconflicted := eq_false_iff.mpr hconflicted
      split at h
      · rename_i hskipped
        cases h
        refine ⟨.of_map rfl fun _ _ => rfl, fun _ => Keeps.refl s, .inr ⟨?_, ?_⟩⟩
        · rintro ⟨pcoin', hpcoin', ⟨hconflicted', -⟩ | ⟨hgeneration, -⟩⟩
          · cases hpcoin.symm.trans hpcoin'
            rw [hconflicted] at hconflicted'
            cases hconflicted'
          · cases hpcoin.symm.trans hpcoin'
            simp [hgeneration] at hskipped
        · intro pcoin' hpcoin'
          cases hpcoin.symm.trans hpcoin'
          rw [if_neg (eq_false_iff.mp hconflicted)]
          exact .inl hskipped
      · cases h
        exact fixCoins_repair hpcoin hname hconflicted

section

omit [LawfulEqOrd H]

theorem Named.visits (hnamed : Named world s) (hvisits : Visits world s s' key) : Named world s' := by
  intro other entry hentry
  by_cases hother : other = key
  · subst hother
    rcases hvisits.own with hnone | hsame
    · rw [hnone] at hentry
      cases hentry
    · exact hnamed _ entry (hsame ▸ hentry)
  · exact hnamed other entry (hvisits.info other hother ▸ hentry)

/-- **No visit unsettles another entry.** -/
theorem Settled.visits {other : H} (hsettled : Settled world other s)
    (hvisits : Visits world s s' key) (hother : other ≠ key) : Settled world other s' := by
  intro pcoin' hpcoin'
  have hinfo := hvisits.info other hother
  rw [info, hpcoin', map_some] at hinfo
  obtain ⟨pcoin, hpcoin, hforget⟩ := map_eq_some_iff.mp hinfo.symm
  have hsettled := hsettled pcoin hpcoin
  rw [eq_of_forgetFlags hforget.symm]
  show if isConflicted world pcoin then _ else _
  split
  · rename_i hconflicted
    rw [if_pos hconflicted] at hsettled
    obtain ⟨nDebit, hdebit, hcached, hreceives, hsends⟩ := hsettled
    have hsame : s'.debit world other pcoin = s.debit world other pcoin := by
      rw [RepairState.debit, RepairState.debit, hvisits.debit other hother, hcached, some_or,
        some_or]
    refine ⟨nDebit, hsame.trans hdebit, (hvisits.debit other hother).trans hcached, ?_, ?_⟩
    · intro h
      exact hreceives ⟨hsame.symm.trans h.1, h.2⟩
    · rintro ⟨nOther, hnOther, hpositive⟩
      exact hsends ⟨nOther, hsame.symm.trans hnOther, hpositive⟩
  · rename_i hconflicted
    rw [if_neg hconflicted] at hsettled
    refine hsettled.imp id ?_
    rintro ⟨hcurrent, hfits⟩
    refine ⟨hcurrent, fun output hout hmine => ?_⟩
    refine Iff.trans ⟨hvisits.fewer other _ hother, fun hspent => ?_⟩ (hfits output hout hmine)
    rcases hvisits.freed other _ hother hspent with hafter | ⟨prev, -, hprev, -, -, -, hfree⟩
    · exact hafter
    · -- A mark that fits is not one that the index does not have.
      cases hpcoin.symm.trans hprev
      rw [(hfits output hout hmine).mp hspent] at hfree
      cases hfree

theorem erasable_congr (hkeeps : Keeps world s s') : Erasable world s' key ↔ Erasable world s key := by
  have hform : ∀ s : RepairState H, Erasable world s key ↔ ∃ entry, info s.mapWallet key = some entry ∧
      ((isConflicted world entry = true ∧ (Receives world s key entry ∨ Sends world s key entry)) ∨
        Orphaned world entry) := by
    intro s
    rw [Erasable, info]
    cases s.mapWallet[key]? with
    | none => simp
    | some pcoin =>
      simp only [Option.some.injEq, exists_eq_left', map_some]
      exact Iff.rfl
  rw [hform, hform, hkeeps.info]
  refine exists_congr fun entry => and_congr_right fun hentry => ?_
  rw [Receives, Receives, Sends, Sends, hkeeps.debit key entry hentry]

end

theorem fixCoin_of_settled (hpcoin : s.mapWallet[key]? = some pcoin)
    (hsettled : Settled world key s) : fixCoin world false s key = .ok s := by
  have hsettled := hsettled pcoin hpcoin
  simp only [fixCoin, hpcoin]
  split
  · rename_i hconflicted
    rw [if_pos hconflicted] at hsettled
    obtain ⟨nDebit, hdebit, hcached, hreceives, hsends⟩ := hsettled
    rcases fixConflicted_cases world false s key pcoin with ⟨hnone, -⟩ | ⟨nOther, hsome, hcases⟩
    · rw [hdebit] at hnone
      cases hnone
    · cases hdebit.symm.trans hsome
      rcases hcases with ⟨h, -⟩ | ⟨h, -⟩ | ⟨h, -⟩ | ⟨-, -, hresult⟩
      · exact absurd h hreceives
      · exact absurd h hsends
      · exact absurd h hsends
      · rw [hresult, cacheDebit, ← hcached, Function.update_eq_self]
  · rename_i hconflicted
    rw [if_neg hconflicted] at hsettled
    split
    · rfl
    · rename_i hskipped
      obtain ⟨hcurrent, hfits⟩ := hsettled.resolve_left hskipped
      have hfold : pcoin.vout.zipIdx.foldl (fixOutput world false key
          (world.readTxIndex (pcoin.getHash world.toSha256))) s = s :=
        foldl_fixOutput_of_fits hpcoin (fun output hout => List.mem_zipIdx_iff_getElem?.mp hout) hfits
      rw [fixCoins, hfold]
      rw [Orphaned] at hcurrent
      rw [if_neg (by simpa using hcurrent)]

/-- A check leaves the entries with their flags and the database as they are, also where it
throws. -/
def CheckKeepsWallet (world : RepairWorld H) (s : RepairState H) : Prop :=
  (Sweep.left (s.fixSpentCoins world true)).mapWallet = s.mapWallet ∧
    (Sweep.left (s.fixSpentCoins world true)).walletdb = s.walletdb

/-- After a repair another one finds nothing and changes nothing. -/
def RepairLasts (world : RepairWorld H) (s : RepairState H) : Prop :=
  ∀ s', s.fixSpentCoins world false = .ok s' → ∃ s'', s'.fixSpentCoins world false = .ok s'' ∧
    s''.nMismatchFound = 0 ∧ s''.nOrphansFound = 0 ∧ s''.mapWallet = s'.mapWallet ∧
    s''.walletdb = s'.walletdb

omit [DecidableEq H] in
theorem mem_keys_iff : key ∈ s.mapWallet.keys ↔ ∃ pcoin, s.mapWallet[key]? = some pcoin := by
  rw [mem_keys, ← isSome_getElem?_iff_mem, isSome_iff_exists]

/-- **When a check changes nothing.** -/
theorem checkKeepsWallet_iff : CheckKeepsWallet world s ↔ RestoresNothing world s s.mapWallet.keys := by
  have hcounts : Keeps world s.cleared s := .of_caches rfl rfl rfl (Nat.zero_le _) (Nat.zero_le _)
  rw [restoresNothing_congr hcounts rfl, CheckKeepsWallet]
  refine check_pass_iff fun key hkey => ?_
  obtain ⟨pcoin, hpcoin⟩ := mem_keys_iff.mp hkey
  exact ⟨pcoin.forgetFlags, congrArg (Option.map forgetFlags) hpcoin⟩

/-- What a repair needs: entries stored under their hashes, and that what it is to remove can be
removed. -/
def Repairable (world : RepairWorld H) (s : RepairState H) : Prop :=
  Named world s ∧ (world.fFileBacked = true ∨ ∀ key, ¬Erasable world s key)

theorem Repairable.visit (hs : Repairable world s) (h : fixCoin world false s key = .ok s') :
    Repairable world s' ∧ Settled world key s' ∧ ∀ other, Settled world other s → Settled world other s' := by
  obtain ⟨hnamed, hremoves⟩ := hs
  obtain ⟨hvisits, hkeeps, houtcome⟩ := fixCoin_repair hnamed h
  have hkey : Settled world key s' := by
    rcases houtcome with ⟨herasable, hgone, -⟩ | ⟨-, hsettled⟩
    · have hnone := hgone (hremoves.resolve_right fun h => h key herasable)
      intro pcoin hpcoin
      rw [info, hpcoin] at hnone
      cases hnone
    · exact hsettled
  refine ⟨⟨hnamed.visits hvisits, ?_⟩, hkey, fun other hsettled => ?_⟩
  · cases hbacked : world.fFileBacked with
    | true => exact .inl rfl
    | false =>
      rw [hbacked] at hremoves
      refine .inr fun other herasable => ?_
      exact hremoves.resolve_left Bool.false_ne_true other
        ((erasable_congr (hkeeps hbacked)).mp herasable)
  · by_cases hother : other = key
    · exact hother ▸ hkey
    · exact hsettled.visits hvisits hother

/-- **A repair that removes what it finds** leaves nothing for another one. -/
theorem repairLasts_of_repairable (hs : Repairable world s) : RepairLasts world s := by
  intro s' h
  have hpass : Repairable world s' ∧ (∀ key ∈ s.mapWallet.keys, Settled world key s') ∧
      ∀ other, Settled world other s.cleared → Settled world other s' :=
    Sweep.settled_of_pass (fun _ _ _ hs hvisit => (Repairable.visit hs hvisit).1)
      (fun _ _ _ hs hvisit => (Repairable.visit hs hvisit).2.1)
      (fun _ _ _ other hs hvisit => (Repairable.visit hs hvisit).2.2 other)
      (show Repairable world s.cleared from hs) h
  obtain ⟨-, hvisited, hkept⟩ := hpass
  have hsettled : ∀ key, Settled world key s' := by
    intro key
    by_cases hkey : key ∈ s.mapWallet.keys
    · exact hvisited key hkey
    · exact hkept key fun pcoin hpcoin => absurd (mem_keys_iff.mpr ⟨pcoin, hpcoin⟩) hkey
  refine ⟨s'.cleared, Sweep.pass_of_fixed fun key hkey => ?_, rfl, rfl, rfl, rfl⟩
  obtain ⟨pcoin, hpcoin⟩ := mem_keys_iff.mp hkey
  exact fixCoin_of_settled (show s'.cleared.mapWallet[key]? = some pcoin from hpcoin) (hsettled key)

/-- Without a file the entries and their amounts stay. -/
def Stays (world : RepairWorld H) (s s' : RepairState H) : Prop :=
  Named world s → Named world s' ∧ Keeps world s s'

section

omit [LawfulEqOrd H] [DecidableEq H]

theorem Stays.refl (s : RepairState H) : Stays world s s := fun hnamed => ⟨hnamed, Keeps.refl s⟩

theorem Stays.trans {t : RepairState H} (h : Stays world s s') (h' : Stays world s' t) :
    Stays world s t := fun hnamed =>
  ⟨(h' (h hnamed).1).1, (h hnamed).2.trans (h' (h hnamed).1).2⟩

end

theorem stays_fixCoin (hbacked : world.fFileBacked = false)
    (h : fixCoin world false s key = .ok s') : Stays world s s' := fun hnamed =>
  ⟨hnamed.visits (fixCoin_repair hnamed h).visits, (fixCoin_repair hnamed h).keeps hbacked⟩

/-- **A repair of a wallet without a file** finds the same again. -/
theorem not_repairLasts (hnamed : Named world s) (hbacked : world.fFileBacked = false)
    (herasable : Erasable world s key) (h : s.fixSpentCoins world false = .ok s') : ¬RepairLasts world s := by
  intro hlasts
  obtain ⟨s'', hagain, hmismatch, horphans, -⟩ := hlasts s' h
  have hstays : ∀ (s : RepairState H) (key : H) (s' : RepairState H),
      fixCoin world false s key = .ok s' → Stays world s s' := fun _ _ _ => stays_fixCoin hbacked
  have hfirst : Stays world s.cleared s' := Sweep.rel_of_pass Stays.refl (fun _ _ _ => Stays.trans) hstays h
  obtain ⟨hnamed', hkeeps⟩ := hfirst hnamed
  have herasable' : Erasable world s' key := (erasable_congr hkeeps).mpr herasable
  have hkey : key ∈ s'.mapWallet.keys := by
    obtain ⟨pcoin, hpcoin, -⟩ := herasable'
    exact mem_keys_iff.mpr ⟨pcoin, hpcoin⟩
  obtain ⟨before, after, hbefore, hvisit, hafter⟩ :=
    Sweep.visit_of_pass Stays.refl (fun _ _ _ => Stays.trans) hstays hagain hkey
  obtain ⟨hnamed'', hkeeps'⟩ := hbefore hnamed'
  have hrepairs := fixCoin_repair hnamed'' hvisit
  have hlater := (hafter (hnamed''.visits hrepairs.visits)).2
  -- The entry was counted on this visit, and the counts do not fall.
  rcases hrepairs.outcome with ⟨-, -, hcounted⟩ | ⟨hnot, -⟩
  · have hmore := hcounted hbacked
    have hmismatches := hlater.mismatch
    have horphaned := hlater.orphans
    omega
  · exact hnot ((erasable_congr hkeeps').mpr herasable')

/-- **When the check and the repair do as they should**: no input can be restored at an entry that
the check comes to, and the repair throws, or it can remove what it finds, or finds nothing to
remove. -/
theorem fixSpentCoins_iff (hnamed : Named world s) : CheckKeepsWallet world s ∧
      RepairLasts world s ↔ RestoresNothing world s s.mapWallet.keys ∧
        ((∃ s', s.fixSpentCoins world false = .error s') ∨ world.fFileBacked = true ∨
          ∀ key, ¬Erasable world s key) := by
  rw [checkKeepsWallet_iff]
  refine and_congr_right fun _ => ⟨fun hlasts => ?_, ?_⟩
  · cases h : s.fixSpentCoins world false with
    | error s' => exact .inl ⟨s', rfl⟩
    | ok s' =>
      refine .inr (or_iff_not_imp_left.mpr fun hbacked key herasable => ?_)
      exact not_repairLasts hnamed (Bool.eq_false_iff.mpr hbacked) herasable h hlasts
  · rintro (⟨s', h⟩ | hremoves)
    · intro s'' h'
      cases h.symm.trans h'
    · exact repairLasts_of_repairable ⟨hnamed, hremoves⟩

/-- The chain has the coin, unspent, and gave up on what spends it. -/
def repairWorld : RepairWorld (List Nat) where
  toSha256 := transparent
  isMine script := script == payTo 1
  readTxIndex hash :=
    if hash = CWalletState.coinTx.getHash transparent then some (.new ⟨1, 1, 1⟩ 1) else none
  depthInMainChain wtx := if wtx.nTime = 1 then 10 else -1
  fFileBacked := true

def markedCoin : StoredTx (List Nat) := { CWalletState.ownTx CWalletState.coinTx with vfSpent := [true] }

/-- A wallet with the marked coin and these entries. -/
def markedWallet (txs : List (CTransaction (List Nat))) : RepairState (List Nat) where
  mapWallet :=
    txs.foldl
      (fun mapWallet tx => mapWallet.insert (tx.getHash transparent) (CWalletState.ownTx tx))
    ((∅ : WalletMap (List Nat)).insert (CWalletState.coinTx.getHash transparent) markedCoin)
  nDebitCached _ := none
  nCreditCached _ := none
  walletdb := []
  nMismatchFound := 0
  nBalanceInQuestion := 0
  nOrphansFound := 0

/-- Without a conflicted transaction the check keeps the mark, and the repair takes it for good. -/
theorem fixSpentCoins_iff_marked :
    (CheckKeepsWallet repairWorld (markedWallet []) ∧ RepairLasts repairWorld (markedWallet [])) ∧
      ∃ s, (markedWallet []).fixSpentCoins repairWorld false = .ok s ∧ s.nMismatchFound = 1 := by
  have hentry : ∀ (key : List Nat) (wtx : StoredTx (List Nat)),
      (markedWallet []).mapWallet[key]? = some wtx →
        coinTx.getHash transparent = key ∧ wtx = markedCoin := by
    intro key wtx hwtx
    rw [show (markedWallet []).mapWallet = (∅ : WalletMap (List Nat)).insert
      (coinTx.getHash transparent) markedCoin from rfl, ExtTreeMap.getElem?_insert] at hwtx
    split at hwtx
    · rename_i hkey
      exact ⟨LawfulEqCmp.eq_of_compare hkey, (Option.some.inj hwtx).symm⟩
    · cases hwtx
  have hnamed : Named repairWorld (markedWallet []) := by
    intro key entry hinfo
    obtain ⟨wtx, hwtx, rfl⟩ := Option.map_eq_some_iff.mp hinfo
    obtain ⟨rfl, rfl⟩ := hentry key wtx hwtx
    rfl
  have hnothing : ∀ keys, RestoresNothing repairWorld (markedWallet []) keys := by
    intro keys
    induction keys with
    | nil => exact trivial
    | cons key keys ih =>
      refine ⟨?_, fun _ => ih⟩
      rintro ⟨wtx, hwtx, hconflicted, -⟩
      obtain ⟨-, rfl⟩ := hentry key wtx hwtx
      have hnot : isConflicted repairWorld markedCoin = false := by decide +kernel
      rw [hnot] at hconflicted
      cases hconflicted
  have hrun : (((markedWallet []).fixSpentCoins repairWorld false).toOption.any fun s =>
      s.nMismatchFound == 1) = true := by decide +kernel
  rw [Option.any_eq_true] at hrun
  obtain ⟨s, hs, hfound⟩ := hrun
  exact ⟨(fixSpentCoins_iff hnamed).mpr ⟨hnothing _, .inr (.inl rfl)⟩, s,
    Fallible.toOption_eq_some.mp hs, beq_iff_eq.mp hfound⟩

/-- **The check takes the mark** when a conflicted transaction spends the coin, and asks for a
record to be written. -/
theorem check_takes_mark :
    SpentAt (markedWallet [sendTx 3]).mapWallet (coinTx.getHash transparent) 0 ∧
      ¬SpentAt (Sweep.left ((markedWallet [sendTx 3]).fixSpentCoins repairWorld true)).mapWallet
        (coinTx.getHash transparent) 0 ∧
      (Sweep.left ((markedWallet [sendTx 3]).fixSpentCoins repairWorld true)).walletdb ≠ [] ∧
      ¬CheckKeepsWallet repairWorld (markedWallet [sendTx 3]) := by
  have hspent : ∀ mapWallet : WalletMap (List Nat),
      SpentAt mapWallet (coinTx.getHash transparent) 0 ↔
        ((mapWallet[coinTx.getHash transparent]?).any fun wtx =>
          decide (0 < wtx.vout.length) && wtx.isSpent 0) = true := by
    intro mapWallet
    rw [SpentAt]
    cases mapWallet[coinTx.getHash transparent]? with
    | none => simp
    | some wtx => simp
  have hbefore := (hspent (markedWallet [sendTx 3]).mapWallet).mpr (by decide +kernel)
  have hafter := mt (hspent (Sweep.left ((markedWallet [sendTx 3]).fixSpentCoins repairWorld
    true)).mapWallet).mp (by decide +kernel)
  have hwritten : (Sweep.left ((markedWallet [sendTx 3]).fixSpentCoins repairWorld
      true)).walletdb.isEmpty = false := by decide +kernel
  refine ⟨hbefore, hafter, fun hnil => ?_, fun hkept => hafter ?_⟩
  · rw [hnil] at hwritten
    cases hwritten
  · rw [hkept.1]
    exact hbefore

end RepairState

end MaryJaneCoin
