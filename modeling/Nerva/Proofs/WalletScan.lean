import Nerva.WalletScan
import Nerva.Lib.Lists
import Nerva.Lib.Throwing

/-!
# What scanning does to the wallet

Whether it returns or throws, `process_new_transaction` has made a series of changes of three kinds
(`Touch`): it has added a transfer and its positions, it has taken another output with the same key
for a transfer, or it has altered transfers in what no position depends on.
-/

namespace Nerva

open Checks Throwing List Ensures Money

variable (acct : Account)

/-- What scanning does not change. -/
def Wallet.frame (w : Wallet) : Wallet :=
  { w with
    subaddresses := fun _ => none
    subaddressLabels := []
    transfers := []
    keyImages := fun _ => none
    pubKeys := fun _ => none
    payments := []
    outputTrackerCache := none }

/-- The table has gained subaddresses of the account. -/
def TableGrown (table table' : PublicKey → Option SubaddressIndex) : Prop :=
  ∀ key, table' key = table key ∨
    ∃ index, acct.subaddressSpendPublicKey index = key ∧ table' key = some index

/-- The output's keys and images are the same. -/
structure Kept (td td' : TransferDetails) : Prop where
  getPublicKey : td'.getPublicKey = td.getPublicKey
  keyImage : td'.keyImage = td.keyImage
  keyImageKnown : td'.keyImageKnown = td.keyImageKnown
  keyImagePartial : td'.keyImagePartial = td.keyImagePartial

/-- The key image belongs to the key: the account has made it, or the cold wallet has. -/
def ImageOf (w : Wallet) (key : PublicKey) (ki : KeyImage) : Prop :=
  (w.watchOnly = false ∧ w.multisig = false ∧
    ∃ derivation i index, acct.generateKeyImage key derivation i index = some (key, ki)) ∨
  w.coldKeyImages key = some ki

/-- A transfer is appended for an output key that is new. -/
structure Added (w w' : Wallet) (td : TransferDetails) (key : PublicKey) : Prop where
  getPublicKey : td.getPublicKey = some key
  fresh : w.pubKeys key = none
  image : td.keyImageKnown → ImageOf acct w key td.keyImage
  isPartial : td.keyImagePartial = w.multisig
  transfers : w'.transfers = w.transfers ++ [td]
  pubKeys : w'.pubKeys = Function.update w.pubKeys key (some w.transfers.length)
  keyImages : w'.keyImages = if td.keyImageKnown
    then Function.update w.keyImages td.keyImage (some w.transfers.length) else w.keyImages

/-- Another output with the key at its position. -/
structure Replaced (w w' : Wallet) (idx : ℕ) (td td' : TransferDetails) (key : PublicKey) :
    Prop where
  position : w.pubKeys key = some idx
  old : w.transfers[idx]? = some td
  getPublicKey : td'.getPublicKey = some key
  keyImage : td'.keyImage = td.keyImage
  keyImageKnown : td'.keyImageKnown = td.keyImageKnown
  keyImagePartial : td'.keyImagePartial = td.keyImagePartial
  transfers : w'.transfers = w.transfers.set idx td'
  pubKeys : w'.pubKeys = w.pubKeys
  keyImages : w'.keyImages = w.keyImages

/-- The transfers have changed, but none was added and no output key. -/
structure Altered (w w' : Wallet) : Prop where
  transfers : List.Forall₂ Kept w.transfers w'.transfers
  pubKeys : w'.pubKeys = w.pubKeys
  keyImages : w'.keyImages = w.keyImages

/-- One change that scanning makes to a wallet. -/
structure Touch (w w' : Wallet) : Prop where
  frame : w'.frame = w.frame
  grown : TableGrown acct w.subaddresses w'.subaddresses
  change : (∃ td key, Added acct w w' td key) ∨ (∃ idx td td' key, Replaced w w' idx td td' key) ∨
    Altered w w'

/-- The changes that scanning makes to a wallet. -/
abbrev Touched : Wallet → Wallet → Prop := Relation.ReflTransGen (Touch acct)

variable {acct} {w w' : Wallet} {α : Type} {f : TransferDetails → TransferDetails}

theorem Kept.refl (td : TransferDetails) : Kept td td := ⟨rfl, rfl, rfl, rfl⟩

theorem forall₂_kept_refl (l : List TransferDetails) : List.Forall₂ Kept l l :=
  forall₂_same.mpr fun td _ => Kept.refl td

theorem TableGrown.refl (table : PublicKey → Option SubaddressIndex) :
    TableGrown acct table table :=
  fun _ => .inl rfl

theorem TableGrown.trans {t₁ t₂ t₃ : PublicKey → Option SubaddressIndex} (h : TableGrown acct t₁ t₂)
    (h' : TableGrown acct t₂ t₃) : TableGrown acct t₁ t₃ := by
  intro key
  rcases h' key with heq | hadded
  · rw [heq]
    exact h key
  · exact .inr hadded

theorem TableGrown.foldl
    {f : (PublicKey → Option SubaddressIndex) → α → PublicKey → Option SubaddressIndex}
    (hf : ∀ table a, TableGrown acct table (f table a)) :
    ∀ (l : List α) (table : PublicKey → Option SubaddressIndex),
      TableGrown acct table (l.foldl f table)
  | [], table => TableGrown.refl table
  | a :: l, table => (hf table a).trans (TableGrown.foldl hf l (f table a))

theorem grown_addSubaddresses (major start stop : ℕ) (table : PublicKey → Option SubaddressIndex) :
    TableGrown acct table (addSubaddresses acct major start stop table) := by
  refine TableGrown.foldl (fun table minor key => ?_) _ table
  by_cases hkey : key = acct.subaddressSpendPublicKey ⟨major, minor⟩
  · exact .inr ⟨⟨major, minor⟩, hkey.symm, by simp [hkey]⟩
  · exact .inl (by simp [hkey])

theorem expandSubaddresses_eq (acct : Account) (w : Wallet) (index : SubaddressIndex) :
    ∃ table labels, w.expandSubaddresses acct index =
      { w with subaddresses := table, subaddressLabels := labels } ∧
      TableGrown acct w.subaddresses table := by
  unfold Wallet.expandSubaddresses
  simp only
  split
  · exact ⟨_, _, rfl, TableGrown.foldl (fun table _ => grown_addSubaddresses _ _ _ table) _ _⟩
  · split_ifs
    · exact ⟨_, _, rfl, grown_addSubaddresses _ _ _ _⟩
    · exact ⟨w.subaddresses, w.subaddressLabels, rfl, TableGrown.refl _⟩

theorem Touch.of_transfers {transfers : List TransferDetails}
    (h : List.Forall₂ Kept w.transfers transfers) : Touch acct w { w with transfers } where
  frame := rfl
  grown := TableGrown.refl _
  change := .inr (.inr ⟨h, rfl, rfl⟩)

theorem forall₂_kept_modify :
    ∀ (l : List TransferDetails) (idx : ℕ), (∀ td, l[idx]? = some td → Kept td (f td)) →
      List.Forall₂ Kept l (l.modify idx f)
  | [], _, _ => by simp
  | td :: l, 0, hf => .cons (hf td rfl) (forall₂_kept_refl l)
  | td :: l, idx + 1, hf => .cons (Kept.refl td) (forall₂_kept_modify l idx hf)

theorem Touch.modifyTransfer (idx : ℕ) (hf : ∀ td, Kept td (f td)) :
    Touch acct w (w.modifyTransfer idx f) :=
  Touch.of_transfers (forall₂_kept_modify _ idx fun td _ => hf td)

theorem Touched.frame (h : Touched acct w w') : w'.frame = w.frame := by
  induction h with
  | refl => rfl
  | tail _ h ih => rw [h.frame, ih]

theorem Touched.grown (h : Touched acct w w') : TableGrown acct w.subaddresses w'.subaddresses := by
  induction h with
  | refl => exact TableGrown.refl _
  | tail _ h ih => exact ih.trans h.grown

theorem eq_of_frame (field : Wallet → α) (hfield : ∀ w, field w.frame = field w)
    (h : w'.frame = w.frame) : field w' = field w := by
  rw [← hfield w', h, hfield w]

theorem Touched.multisig (h : Touched acct w w') : w'.multisig = w.multisig :=
  eq_of_frame Wallet.multisig (fun _ => rfl) h.frame

theorem sumAmounts_eq (l : List UInt64) (a : UInt64) : l.foldl (· + ·) a = a + sumAmounts l := by
  unfold sumAmounts
  induction l generalizing a with
  | nil => simp
  | cons b l ih =>
    rw [foldl_cons, foldl_cons, ih (a + b), ih (0 + b)]
    grind

@[simp] theorem sumAmounts_nil : sumAmounts [] = 0 := rfl

@[simp] theorem sumAmounts_cons (a : UInt64) (l : List UInt64) :
    sumAmounts (a :: l) = a + sumAmounts l := by
  rw [sumAmounts, foldl_cons, sumAmounts_eq]
  grind

@[simp] theorem sumAmounts_append (l l' : List UInt64) :
    sumAmounts (l ++ l') = sumAmounts l + sumAmounts l' := by
  induction l with
  | nil => simp
  | cons a l ih =>
    rw [cons_append, sumAmounts_cons, sumAmounts_cons, ih]
    grind

/-- What is received on all subaddresses. -/
def Money.total (money : Money) : UInt64 := sumAmounts (money.map (·.2))

theorem Money.total_set (v : UInt64) (i : SubaddressIndex) : ∀ money : Money,
    (money.set i v).total + money.get i = money.total + v
  | [] => by simp [set, get, total]
  | (index, amount) :: money => by
    have ih := total_set v i money
    unfold total at ih ⊢
    unfold set get
    split_ifs
    · simp only [map_cons, sumAmounts_cons]
      grind
    · simp only [map_cons, sumAmounts_cons]
      grind

theorem Money.total_filter (p : SubaddressIndex × UInt64 → Bool) : ∀ money : Money,
    sumAmounts ((money.filter p).map (·.2)) + sumAmounts ((money.filter (! p ·)).map (·.2)) =
      money.total
  | [] => by simp [total]
  | m :: money => by
    have ih := total_filter p money
    unfold total at ih ⊢
    cases hp : p m <;> simp only [filter_cons, hp, Bool.not_true, Bool.not_false, if_true,
      Bool.false_eq_true, if_false, map_cons, sumAmounts_cons] <;> grind

/-- The key image is one that the account generates for the key. -/
def ScannedImage (acct : Account) (multisig : Bool) (key : PublicKey) (ki : KeyImage) : Prop :=
  multisig ∨ ∃ derivation i index, acct.generateKeyImage key derivation i index = some (key, ki)

/-- An output that the scan found is the account's, with its key image and amount. -/
structure Found (acct : Account) (multisig : Bool) (o : ℕ) (out : TxOut) (info : TxScanInfo)
    (received : SubaddressReceiveInfo) : Prop where
  received : info.received = some received
  key : out.key? = some info.pub
  image : ScannedImage acct multisig info.pub info.ki
  amount : receivedAmount out info = info.amount

def amountAt (infos : List TxScanInfo) (o : ℕ) : UInt64 := (infos[o]?.map (·.amount)).getD 0

/-- A found output that shows its amount is recorded with it. -/
def Priced (tx : Transaction) (infos : List TxScanInfo) : Prop :=
  ∀ (i : ℕ) (info : TxScanInfo) (out : TxOut), infos[i]? = some info → tx.vout[i]? = some out →
    info.received.isSome → out.amount ≠ 0 → info.moneyTransfered = out.amount

/-- What the scan of some outputs has found so far. -/
structure Scanned (acct : Account) (multisig : Bool) (tx : Transaction) (start : UInt64)
    (scan : OutputScan) : Prop where
  priced : Priced tx scan.infos
  found : ∀ o ∈ scan.outs, ∃ out info received, tx.vout[o]? = some out ∧
    scan.infos[o]? = some info ∧ Found acct multisig o out info received
  total : scan.got.total = start + sumAmounts (scan.outs.map (amountAt scan.infos))

section Scan

variable {tx : Transaction} {infos : List TxScanInfo} {scan : OutputScan} {start : UInt64}
  {multisig : Bool} {i : ℕ} {r : Round} {info : TxScanInfo}
  {subaddresses : PublicKey → Option SubaddressIndex} {minerTx : Bool} {scan' : OutputScan}
  {received : SubaddressReceiveInfo}

theorem Priced.set (h : Priced tx infos)
    (hinfo : ∀ out, tx.vout[i]? = some out → info.received.isSome → out.amount ≠ 0 →
      info.moneyTransfered = out.amount) :
    Priced tx (infos.set i info) := by
  intro j info' out hinfos hout hreceived hamount
  rcases eq_or_ne i j with rfl | hij
  · have hlt : i < infos.length := by simpa using (List.getElem?_eq_some_iff.mp hinfos).1
    rw [getElem?_set_self hlt] at hinfos
    cases hinfos
    exact hinfo out hout hreceived hamount
  · rw [getElem?_set_ne hij] at hinfos
    exact h j info' out hinfos hout hreceived hamount

theorem map_amountAt_set {outs : List ℕ} (hi : i ∉ outs) :
    outs.map (amountAt (infos.set i info)) = outs.map (amountAt infos) := by
  refine map_congr_left fun j hj => ?_
  have hij : i ≠ j := fun heq => hi (heq ▸ hj)
  rw [amountAt, getElem?_set_ne hij, amountAt]

theorem Scanned.setInfo (h : Scanned acct multisig tx start scan) (hi : i ∉ scan.outs)
    (info : TxScanInfo) (found : List Bool)
    (hinfo : ∀ out, tx.vout[i]? = some out → info.received.isSome → out.amount ≠ 0 →
      info.moneyTransfered = out.amount) :
    Scanned acct multisig tx start { scan with infos := scan.infos.set i info, found } where
  priced := h.priced.set hinfo
  found o ho := by
    obtain ⟨out, info', received, hout, hinfos, hfound⟩ := h.found o ho
    have hne : i ≠ o := by
      rintro rfl
      exact hi ho
    exact ⟨out, info', received, hout, (getElem?_set_ne hne).trans hinfos, hfound⟩
  total := by
    rw [map_amountAt_set hi]
    exact h.total

theorem checkAccOutCached_priced {o : TxOut} {derivation : Derivation}
    {additional : List Derivation} {data : Option IsOutData} (hinfo : info.received = none)
    (hreceived : (checkAccOutCached acct subaddresses o derivation additional i data
      info).received.isSome) :
    (checkAccOutCached acct subaddresses o derivation additional i data
      info).moneyTransfered = o.amount := by
  unfold checkAccOutCached checkAccOutPrecomp at hreceived ⊢
  split at hreceived
  · split at hreceived
    · simp_all
    · simp_all
  · simp_all

theorem Scanned.checkOnce (h : Scanned acct multisig tx start scan) (hi : i ∉ scan.outs) :
    Scanned acct multisig tx start (checkAccOutPrecompOnce acct subaddresses tx r scan i) := by
  unfold checkAccOutPrecompOnce
  split
  · next o info alreadySeen ho hinfo hseen =>
    split_ifs
    · exact h.setInfo hi _ scan.found (by simp)
    · refine h.setInfo hi _ _ fun out hout hreceived hamount => ?_
      obtain rfl : o = out := by simpa [ho] using hout
      exact checkAccOutCached_priced rfl hreceived
  · exact h

theorem outs_checkOnce :
    (checkAccOutPrecompOnce acct subaddresses tx r scan i).outs = scan.outs := by
  unfold checkAccOutPrecompOnce
  split
  · simp only
    split_ifs <;> rfl
  · rfl

theorem outputKeyImage_ok {key : PublicKey} {pair : PublicKey × KeyImage}
    (h : outputKeyImage acct w key i received = .ok pair) :
    pair.1 = key ∧ ScannedImage acct w.multisig key pair.2 := by
  unfold outputKeyImage at h
  split at h
  · next hmultisig =>
    cases h
    exact ⟨rfl, .inl hmultisig⟩
  · simp only [bind_eq_ok, demand_eq_ok, require_eq_ok, exists_unit, pure_eq_ok] at h
    obtain ⟨⟨pub, ki⟩, himage, hpub, rfl⟩ := h
    obtain rfl : pub = key := hpub
    exact ⟨rfl, .inr ⟨_, _, _, himage⟩⟩

/-- One more output is scanned. -/
theorem Scanned.scanOutput (h : Scanned acct w.multisig tx start scan)
    (hinfo : scan.infos[i]? = some info) (hreceived : info.received = some received)
    (hs : scanOutput acct w tx minerTx scan i info received = .ok scan') :
    Scanned acct w.multisig tx start scan' ∧ scan'.outs ⊆ i :: scan.outs := by
  unfold Nerva.scanOutput at hs
  simp only [bind_eq_ok, demand_eq_ok, require_eq_ok, exists_unit] at hs
  obtain ⟨-, key, hkey, ⟨pub, ki⟩, hpair, hi, hs⟩ := hs
  obtain ⟨out, hout, houtKey⟩ := Option.bind_eq_some_iff.mp hkey
  obtain ⟨rfl, himage⟩ := outputKeyImage_ok hpair
  generalize hmoney : decodeMoney acct tx minerTx i info received = decoded at hs
  obtain ⟨money, mask⟩ := decoded
  have hprice : out.amount ≠ 0 → money = out.amount := by
    intro hamount
    have heq := h.priced i info out hinfo hout (by simp [hreceived]) hamount
    rw [decodeMoney, if_neg fun hzero => hamount (heq ▸ hzero.1)] at hmoney
    rw [← heq]
    exact (congrArg Prod.fst hmoney).symm
  have hpriced : ∀ out', tx.vout[i]? = some out' → out'.amount ≠ 0 → money = out'.amount := by
    intro out' hout'
    obtain rfl : out = out' := by simpa [hout] using hout'
    exact hprice
  have hlt := (List.getElem?_eq_some_iff.mp hinfo).1
  have hset := fun info' (heq : info'.moneyTransfered = money) =>
    h.setInfo hi info' scan.found fun out' hout' _ hamount =>
      heq.trans (hpriced out' hout' hamount)
  split_ifs at hs with hzero
  · obtain rfl := pure_eq_ok.mp hs
    exact ⟨hset _ rfl, subset_cons_self _ _⟩
  · simp only [bind_eq_ok, exists_unit, pure_eq_ok] at hs
    obtain ⟨-, rfl⟩ := hs
    refine ⟨⟨(hset _ rfl).priced, ?_, ?_⟩, ?_⟩
    · intro o ho
      rcases mem_append.mp ho with ho | ho
      · exact (hset _ rfl).found o ho
      · obtain rfl := mem_singleton.mp ho
        refine ⟨out, _, received, hout, getElem?_set_self hlt, hreceived, houtKey,
          himage, ?_⟩
        unfold receivedAmount
        split_ifs with hamount
        · exact (hprice hamount).symm
        · rfl
    · have htotal := h.total
      have hgot := Money.total_set (scan.got.get received.index + money) received.index scan.got
      simp only [map_append, map_amountAt_set hi]
      simp [amountAt]
      grind
    · intro o ho
      simpa [or_comm] using ho

theorem Scanned.takeOutput (h : Scanned acct w.multisig tx start scan)
    (hs : takeOutput acct w tx minerTx scan i = .ok scan') :
    Scanned acct w.multisig tx start scan' ∧ scan'.outs ⊆ i :: scan.outs := by
  unfold Nerva.takeOutput at hs
  simp only [bind_eq_ok, demand_eq_ok, exists_unit] at hs
  obtain ⟨info, hinfo, -, hs⟩ := hs
  split at hs
  · obtain rfl := pure_eq_ok.mp hs
    exact ⟨h, subset_cons_self _ _⟩
  · next received hreceived => exact h.scanOutput hinfo hreceived hs

theorem Scanned.foldl_checkOnce :
    ∀ (l : List ℕ) (scan : OutputScan), Scanned acct multisig tx start scan → scan.outs = [] →
      Scanned acct multisig tx start
        (l.foldl (checkAccOutPrecompOnce acct subaddresses tx r) scan)
  | [], _, h, _ => h
  | i :: l, scan, h, houts =>
    Scanned.foldl_checkOnce l _ (h.checkOnce (by simp [houts])) (outs_checkOnce.trans houts)

theorem Scanned.foldlM_takeOutput :
    ∀ (l : List ℕ) (scan scan' : OutputScan), Scanned acct w.multisig tx start scan → l.Nodup →
      (∀ o ∈ scan.outs, o ∉ l) →
      l.foldlM (fun scan i => Nerva.takeOutput acct w tx minerTx
        (checkAccOutPrecompOnce acct subaddresses tx r scan i) i) scan = .ok scan' →
      Scanned acct w.multisig tx start scan'
  | [], _, _, h, _, _, hs => pure_eq_ok.mp hs ▸ h
  | i :: l, scan, scan', h, hnodup, houts, hs => by
    rw [foldlM_cons, bind_eq_ok] at hs
    obtain ⟨scan₁, hs₁, hs⟩ := hs
    have hi : i ∉ scan.outs := fun hi => houts i hi mem_cons_self
    obtain ⟨h₁, hsub⟩ := (h.checkOnce hi).takeOutput hs₁
    refine Scanned.foldlM_takeOutput l scan₁ scan' h₁ (nodup_cons.mp hnodup).2 ?_ hs
    intro o ho hl
    rcases mem_cons.mp (hsub ho) with rfl | ho
    · exact (nodup_cons.mp hnodup).1 hl
    · rw [outs_checkOnce] at ho
      exact houts o ho (mem_cons_of_mem _ hl)

/-- All outputs are scanned. -/
theorem scanOutputs_scanned {t : NewTransaction} (h : Scanned acct w.multisig t.tx start scan)
    (houts : scan.outs = []) (hs : scanOutputs acct w t r scan = .ok scan') :
    Scanned acct w.multisig t.tx start scan' := by
  unfold scanOutputs at hs
  split_ifs at hs with hnone hopt
  · exact pure_eq_ok.mp hs ▸ h
  · simp only [bind_eq_ok, exists_unit] at hs
    obtain ⟨first, -, -, hs⟩ := hs
    have h₀ : Scanned acct w.multisig t.tx start
        (checkAccOutPrecompOnce acct w.subaddresses t.tx r scan 0) := h.checkOnce (by simp [houts])
    split_ifs at hs
    · exact pure_eq_ok.mp hs ▸ h₀
    · refine (foldlM_ok_mem (R := fun scan scan' => Scanned acct w.multisig t.tx start scan →
        Scanned acct w.multisig t.tx start scan') (fun _ => id) (fun h h' hs => h' (h hs))
        (fun _ _ _ hs h => (h.takeOutput hs).1) _ _ _ hs).1 ?_
      exact Scanned.foldl_checkOnce _ _ h₀ (outs_checkOnce.trans houts)
  · exact Scanned.foldlM_takeOutput _ _ _ h nodup_range (by simp [houts]) hs

end Scan

/-- The amounts of all transfers. -/
def Wallet.held (w : Wallet) : ℕ := (w.transfers.map fun td => td.amount.toNat).sum

/-- What receiving an output of this amount does: the amount goes from the money still to be
accounted for into the total, as far as it is new. -/
structure Step (acct : Account) (pool : Bool) (p p' : Processing) (amount : UInt64) : Prop where
  infos : p'.infos = p.infos
  touched : Touched acct p.wallet p'.wallet
  balance : p'.got.total + p.totalReceived1 + amount = p.got.total + p'.totalReceived1
  recorded : pool = false → ∃ n : ℕ, p'.wallet.held = p.wallet.held + n ∧
    p'.totalReceived1 = p.totalReceived1 + UInt64.ofNat n

section Receive

variable {t : NewTransaction} {p p' : Processing} {pkIndex o : ℕ} {out : TxOut} {info : TxScanInfo}
  {received : SubaddressReceiveInfo} {globalOutputIndex : UInt64} {i : ℕ} {scan : OutputScan}
  {fields : List TxExtraField} {key : PublicKey} {minerTx : Bool} {tx : Transaction}

theorem newKeyImage_imageOf (himage : ScannedImage acct w.multisig info.pub info.ki)
    (h : (newKeyImage w info).2 = true) : ImageOf acct w info.pub (newKeyImage w info).1 := by
  unfold newKeyImage at h ⊢
  split at h
  · next hfull =>
    obtain ⟨hwatch, hmultisig⟩ : w.watchOnly = false ∧ w.multisig = false := by simpa using hfull
    rcases himage with himage | himage
    · simp [hmultisig] at himage
    · simpa [hwatch, hmultisig] using .inl ⟨hwatch, hmultisig, himage⟩
  · next hfull =>
    rw [if_neg hfull]
    split at h
    · next ki hki => exact .inr (by simp [hki])
    · cases h

/-- A new output adds its amount to what is held. -/
theorem addTransfer_touch (pkIndex : ℕ) (globalOutputIndex : UInt64)
    (hout : t.tx.vout[o]? = some out)
    (hfound : Found acct w.multisig o out info received) (hfresh : w.pubKeys info.pub = none) :
    Touch acct w (addTransfer acct w t pkIndex o globalOutputIndex out info received) ∧
      (addTransfer acct w t pkIndex o globalOutputIndex out info received).held =
        w.held + info.amount.toNat := by
  unfold addTransfer
  simp only
  obtain ⟨table, labels, heq, hgrown⟩ := expandSubaddresses_eq acct
    { w with transfers := w.transfers ++
      [newTransfer w t pkIndex o globalOutputIndex out info received] } received.index
  rw [heq]
  constructor
  · refine ⟨rfl, hgrown, .inl ⟨_, info.pub, ?_, hfresh, newKeyImage_imageOf hfound.image, rfl, rfl,
      rfl, rfl⟩⟩
    simp [newTransfer, TransferDetails.getPublicKey, TransferDetails.receive,
      Transaction.toTransactionPrefix, hout, hfound.key]
  · have hamount : (newTransfer w t pkIndex o globalOutputIndex out info received).amount =
        info.amount := hfound.amount
    simp [Wallet.held, Wallet.track, hamount]

/-- An output seen before is replaced. -/
theorem replaceTransfer_touch (pkIndex : ℕ) (globalOutputIndex : UInt64) {idx : ℕ}
    {td : TransferDetails} (hout : t.tx.vout[o]? = some out)
    (hfound : Found acct w.multisig o out info received) (htd : w.transfers[idx]? = some td)
    (hposition : w.pubKeys info.pub = some idx) :
    Touch acct w (replaceTransfer acct w t pkIndex o globalOutputIndex out info received idx) ∧
      (replaceTransfer acct w t pkIndex o globalOutputIndex out info received idx).held +
        td.amount.toNat = w.held + info.amount.toNat := by
  unfold replaceTransfer
  obtain ⟨table, labels, heq, hgrown⟩ := expandSubaddresses_eq acct
    (w.modifyTransfer idx (·.receive t pkIndex o globalOutputIndex out info received))
    received.index
  rw [heq]
  constructor
  · refine ⟨rfl, hgrown, .inr (.inl ⟨idx, td,
      td.receive t pkIndex o globalOutputIndex out info received, info.pub, hposition, htd, ?_,
      rfl, rfl, rfl, ?_, rfl, rfl⟩)⟩
    · simp [TransferDetails.getPublicKey, TransferDetails.receive, Transaction.toTransactionPrefix,
        hout, hfound.key]
    · exact (modify_eq_set_getElem? _ idx w.transfers).trans (by simp [htd])
  · have hheld := Lists.sum_map_modify (·.receive t pkIndex o globalOutputIndex out info received)
      (fun td => td.amount.toNat) w.transfers idx td htd
    have hamount : (td.receive t pkIndex o globalOutputIndex out info received).amount =
        info.amount := hfound.amount
    rw [hamount] at hheld
    exact hheld

/-- One found output is received. -/
theorem receiveOutput_step (hout : t.tx.vout[o]? = some out) (hinfo : p.infos[o]? = some info)
    (hfound : Found acct p.wallet.multisig o out info received) :
    Ensures (Step acct t.pool p · info.amount) (fun e => e.1 = p.wallet ∧ e.2 ≠ .exit)
      (receiveOutput acct t pkIndex p o) := by
  have hthrow : ∀ e, e ≠ WalletError.exit →
      ((p.wallet, e) : Thrown).1 = p.wallet ∧ ((p.wallet, e) : Thrown).2 ≠ .exit :=
    fun e he => ⟨rfl, he⟩
  unfold receiveOutput
  simp only [hout, hinfo, hfound.received, demand_some, ok_bind]
  split
  · next hfresh =>
    -- an output with a new key
    have hbalance : p.got.total + p.totalReceived1 + info.amount =
        p.got.total + (p.totalReceived1 + receivedAmount out info) := by
      rw [hfound.amount]
      grind
    split_ifs with hpool
    · exact ⟨rfl, .refl, hbalance, fun h => by simp [hpool] at h⟩
    · refine demand_bind (fun _ => hthrow _ (by simp)) fun globalOutputIndex _ => ?_
      obtain ⟨htouch, hheld⟩ := addTransfer_touch pkIndex globalOutputIndex hout hfound hfresh
      refine ⟨rfl, .single htouch, hbalance, fun _ => ⟨_, hheld, ?_⟩⟩
      simp [hfound.amount]
  · next idx hposition =>
    refine demand_bind (fun _ => hthrow _ (by simp)) fun td htd => ?_
    refine require_bind (fun _ => hthrow _ (by simp)) fun _ => ?_
    split_ifs with hsmall hpool
    · -- one that the wallet has already
      have hset := Money.total_set (p.got.get received.index - info.amount) received.index p.got
      refine ⟨rfl, .refl, ?_, fun _ => ⟨0, rfl, by simp⟩⟩
      grind
    all_goals
      -- one that takes the place of a smaller one
      have hset := Money.total_set (p.got.get received.index - td.amount) received.index p.got
      have hbalance : (p.got.set received.index (p.got.get received.index - td.amount)).total +
          p.totalReceived1 + info.amount = p.got.total +
          (p.totalReceived1 + (receivedAmount out info - td.amount)) := by
        rw [hfound.amount]
        grind
    · exact ⟨rfl, .refl, hbalance, fun h => by simp [hpool] at h⟩
    · refine demand_bind (fun _ => hthrow _ (by simp)) fun globalOutputIndex _ => ?_
      obtain ⟨htouch, hheld⟩ := replaceTransfer_touch pkIndex globalOutputIndex hout hfound
        htd hposition
      have hlt : td.amount ≤ info.amount := by
        simp only [not_or, UInt64.not_le] at hsmall
        exact UInt64.le_of_lt hsmall.2
      have hsub := UInt64.toNat_sub_of_le _ _ hlt
      have hle : td.amount.toNat ≤ info.amount.toNat := hlt
      refine ⟨rfl, .single htouch, hbalance, fun _ => ⟨(info.amount - td.amount).toNat, ?_, ?_⟩⟩
      · simp only
        omega
      · simp [hfound.amount]

theorem Step.refl (pool : Bool) (p : Processing) : Step acct pool p p 0 where
  infos := rfl
  touched := .refl
  balance := by grind
  recorded _ := ⟨0, rfl, by simp⟩

theorem Step.trans {pool : Bool} {p'' : Processing} {a b : UInt64} (h : Step acct pool p p' a)
    (h' : Step acct pool p' p'' b) : Step acct pool p p'' (a + b) where
  infos := h'.infos.trans h.infos
  touched := h.touched.trans h'.touched
  balance := by
    have hb := h.balance
    have hb' := h'.balance
    grind
  recorded hpool := by
    obtain ⟨n, hn, htotal⟩ := h.recorded hpool
    obtain ⟨n', hn', htotal'⟩ := h'.recorded hpool
    refine ⟨n + n', by omega, ?_⟩
    rw [UInt64.ofNat_add]
    grind

/-- All found outputs are received. -/
theorem receiveOutputs_step : ∀ (outs : List ℕ) (p : Processing),
    (∀ o ∈ outs, ∃ out info received, t.tx.vout[o]? = some out ∧ p.infos[o]? = some info ∧
      Found acct p.wallet.multisig o out info received) →
    Ensures (Step acct t.pool p · (sumAmounts (outs.map (amountAt p.infos))))
      (fun e => Touched acct p.wallet e.1 ∧ e.2 ≠ .exit)
      (outs.foldlM (receiveOutput acct t pkIndex) p)
  | [], p, _ => Step.refl t.pool p
  | o :: outs, p, hfound => by
    obtain ⟨out, info, received, hout, hinfo, ho⟩ := hfound o mem_cons_self
    refine bind ((receiveOutput_step hout hinfo ho).mono (fun _ => id)
      fun e he => ⟨he.1 ▸ .refl, he.2⟩) fun p' hp' => ?_
    have hamount : amountAt p.infos o = info.amount := by simp [amountAt, hinfo]
    have ih := receiveOutputs_step outs p' fun o' ho' => by
      rw [hp'.infos, hp'.touched.multisig]
      exact hfound o' (mem_cons_of_mem _ ho')
    refine ih.mono (fun p'' hp'' => ?_) fun e he => ⟨hp'.touched.trans he.1, he.2⟩
    rw [map_cons, sumAmounts_cons, hamount]
    rw [hp'.infos] at hp''
    exact hp'.trans hp''

/-- What was received is what the transfers gained. -/
structure Balanced (acct : Account) (w : Wallet) (t : NewTransaction) (p : Processing) : Prop where
  priced : Priced t.tx p.infos
  total : p.got.total = p.totalReceived1
  touched : Touched acct w p.wallet
  recorded : t.pool = false → ∃ n : ℕ, p.wallet.held = w.held + n ∧
    p.totalReceived1 = UInt64.ofNat n

theorem round_ne_exit : Ensures (fun _ => True) (· ≠ .exit) (round acct t fields pkIndex key) := by
  unfold round
  split
  · trivial
  · exact demand_bind (by simp) fun _ _ => require_bind (by simp) fun _ => trivial

theorem outputKeyImage_ne_exit :
    Ensures (fun _ => True) (· ≠ .exit) (outputKeyImage acct w key i received) := by
  unfold outputKeyImage
  split
  · trivial
  · exact demand_bind (by simp) fun _ _ => require_bind (by simp) fun _ => trivial

theorem scanOutput_ne_exit :
    Ensures (fun _ => True) (· ≠ .exit) (scanOutput acct w tx minerTx scan i info received) := by
  refine require_bind (by simp) fun _ => demand_bind (by simp) fun key _ =>
    outputKeyImage_ne_exit.bind fun _ _ => require_bind (by simp) fun _ => ?_
  generalize decodeMoney acct tx minerTx i info received = decoded
  obtain ⟨money, mask⟩ := decoded
  simp only
  by_cases hzero : money = 0
  · rw [if_pos hzero]
    trivial
  · rw [if_neg hzero]
    exact require_bind (by simp) fun _ => trivial

theorem takeOutput_ne_exit :
    Ensures (fun _ => True) (· ≠ .exit) (takeOutput acct w tx minerTx scan i) := by
  refine demand_bind (by simp) fun _ _ => require_bind (by simp) fun _ => ?_
  split
  · trivial
  · exact scanOutput_ne_exit

theorem scanOutputs_ne_exit {r : Round} :
    Ensures (fun _ => True) (· ≠ .exit) (scanOutputs acct w t r scan) := by
  unfold scanOutputs
  split_ifs
  · trivial
  · refine demand_bind (by simp) fun _ _ => require_bind (by simp) fun _ => ?_
    split_ifs
    · trivial
    · exact foldlM _ _ trivial fun _ _ _ _ => takeOutput_ne_exit
  · exact foldlM _ _ trivial fun _ _ _ _ => takeOutput_ne_exit

theorem Balanced.processPubKey {key : PublicKey × ℕ} (h : Balanced acct w t p) :
    Ensures (Balanced acct w t) (fun e => Touched acct w e.1 ∧ e.2 ≠ .exit)
      (processPubKey acct t fields p key) := by
  refine (round_ne_exit.mapError fun e he => ⟨h.touched, he⟩).bind fun r _ => ?_
  have hscan₀ : Scanned acct p.wallet.multisig t.tx p.totalReceived1
      ⟨p.infos, p.found, p.got, []⟩ :=
    ⟨h.priced, by simp, by simpa using h.total⟩
  refine bind (P := Scanned acct p.wallet.multisig t.tx p.totalReceived1)
    (mapError (Q := (· ≠ .exit)) ?_ fun e he => ⟨h.touched, he⟩) fun scan hscan => ?_
  · have hne : Ensures (fun _ => True) (· ≠ .exit)
        (scanOutputs acct p.wallet t r ⟨p.infos, p.found, p.got, []⟩) := scanOutputs_ne_exit
    cases hs : scanOutputs acct p.wallet t r ⟨p.infos, p.found, p.got, []⟩ with
    | ok scan => exact scanOutputs_scanned hscan₀ rfl hs
    | error e =>
      rw [hs] at hne
      exact hne
  · split_ifs with houts
    · exact ⟨hscan.priced, by simpa [houts] using hscan.total, h.touched, h.recorded⟩
    · refine require_bind (fun _ => ⟨h.touched, by simp⟩) fun _ => ?_
      refine (receiveOutputs_step scan.outs
        { p with infos := scan.infos, found := scan.found, got := scan.got } hscan.found).mono
        (fun p' hp' => ?_) fun e he => ⟨h.touched.trans he.1, he.2⟩
      refine ⟨hp'.infos ▸ hscan.priced, ?_, h.touched.trans hp'.touched, fun hpool => ?_⟩
      · have hbalance := hp'.balance
        have htotal := hscan.total
        grind
      · obtain ⟨n, hn, htotal⟩ := h.recorded hpool
        obtain ⟨n', hn', htotal'⟩ := hp'.recorded hpool
        refine ⟨n + n', ?_, ?_⟩
        · simp only at hn'
          omega
        · rw [htotal', htotal, UInt64.ofNat_add]

/-- Receiving leaves the sums balanced, or throws and only touches the wallet. -/
theorem receiveOutputs_balanced :
    Ensures (Balanced acct w t) (fun e => Touched acct w e.1 ∧ e.2 ≠ .exit)
      (receiveOutputs acct w t) := by
  refine foldlM _ _ ?_ fun p key _ h => h.processPubKey
  refine ⟨fun i info out hinfo _ hreceived => ?_, rfl, .refl, fun _ => ⟨0, rfl, rfl⟩⟩
  obtain rfl : info = .initial := eq_of_mem_replicate (mem_of_getElem? hinfo)
  simp [TxScanInfo.initial] at hreceived

end Receive

/-- No amount and no key image has changed. -/
structure SameAmounts (w w' : Wallet) : Prop where
  amounts : w'.transfers.map (·.amount) = w.transfers.map (·.amount)
  keyImages : w'.keyImages = w.keyImages

theorem SameAmounts.refl (w : Wallet) : SameAmounts w w := ⟨rfl, rfl⟩

theorem SameAmounts.trans {w'' : Wallet} (h : SameAmounts w w') (h' : SameAmounts w' w'') :
    SameAmounts w w'' := ⟨h'.amounts.trans h.amounts, h'.keyImages.trans h.keyImages⟩

theorem SameAmounts.held (h : SameAmounts w w') : w'.held = w.held := by
  have hmap : ∀ w : Wallet, w.held = ((w.transfers.map (·.amount)).map UInt64.toNat).sum := by
    intro w
    rw [map_map]
    rfl
  rw [hmap, hmap, h.amounts]

/-- Where the input carries an amount, the transfer it spends has that amount. -/
def AmountAgrees (w : Wallet) : TxIn → Prop
  | .toKey amount _ kImage => amount ≠ 0 → ∀ idx td, w.keyImages kImage = some idx →
      w.transfers[idx]? = some td → td.amount = amount
  | _ => True

theorem AmountAgrees.of_same {input : TxIn} (h : SameAmounts w w') (ha : AmountAgrees w input) :
    AmountAgrees w' input := by
  cases input with
  | toKey amount keyOffsets kImage =>
    intro hamount idx td hidx htd
    rw [h.keyImages] at hidx
    have hmap := congrArg (·[idx]?) h.amounts
    simp only [getElem?_map, htd, Option.map_some] at hmap
    obtain ⟨td', htd', heq⟩ := Option.map_eq_some_iff.mp hmap.symm
    rw [← heq]
    exact ha hamount idx td' hidx htd'
  | _ => trivial

section Spend

variable {t : NewTransaction} {idx : ℕ} {amount : UInt64} {f : TransferDetails → TransferDetails}
  {s : Spending}

section

variable (hf : ∀ td, w.transfers[idx]? = some td → (f td).amount = td.amount)

include hf

theorem map_amount_modify :
    (w.transfers.modify idx f).map (·.amount) = w.transfers.map (·.amount) := by
  refine ext_getElem? fun j => ?_
  rw [getElem?_map, getElem?_map, getElem?_modify]
  rcases eq_or_ne idx j with rfl | hij
  · cases h : w.transfers[idx]? with
    | none => rfl
    | some td => simpa using hf td h
  · simp [hij]

theorem SameAmounts.modifyTransfer :
    SameAmounts w (w.modifyTransfer idx f) := ⟨map_amount_modify hf, rfl⟩

end

theorem foldl_use {α : Type} {use : ℕ × Hash} : ∀ (l : List α) (td : TransferDetails),
    Kept td (l.foldl (fun td _ => { td with uses := td.uses ++ [use] }) td) ∧
      (l.foldl (fun td _ => { td with uses := td.uses ++ [use] }) td).amount = td.amount
  | [], td => ⟨Kept.refl td, rfl⟩
  | _ :: l, td => by
    obtain ⟨hkept, hamount⟩ := foldl_use l { td with uses := td.uses ++ [use] }
    exact ⟨⟨hkept.1, hkept.2, hkept.3, hkept.4⟩, hamount⟩

theorem trackUse_same {keyOffsets : List UInt64} :
    Ensures (fun w' => Touched acct w w' ∧ SameAmounts w w')
      (fun e => Touched acct w e.1 ∧ e.2 ≠ .exit) (w.trackUse t amount keyOffsets) := by
  unfold Wallet.trackUse
  split
  · next cache hcache =>
    refine foldlM _ _ ⟨.refl, SameAmounts.refl w⟩ fun w' offset _ ⟨htouched, hsame⟩ => ?_
    split
    · exact ⟨htouched, hsame⟩
    · refine require_bind (fun _ => ⟨htouched, by simp⟩) fun _ => ?_
      exact ⟨htouched.tail (Touch.modifyTransfer _ fun td => ⟨rfl, rfl, rfl, rfl⟩),
        hsame.trans (SameAmounts.modifyTransfer fun _ _ => rfl)⟩
  · refine ⟨.single (Touch.of_transfers ?_), ?_, rfl⟩
    · exact forall₂_map_right_iff.mpr (forall₂_same.mpr fun td _ => (foldl_use _ td).1)
    · rw [map_map]
      exact map_congr_left fun td _ => (foldl_use _ td).2

theorem spend_same :
    Touched acct w (w.spend idx t.height amount) ∧
      ((∀ td, w.transfers[idx]? = some td → amount ≠ 0 → td.amount = amount) →
        SameAmounts w (w.spend idx t.height amount)) := by
  constructor
  · refine (Relation.ReflTransGen.single (Touch.modifyTransfer idx fun td => ?_)).tail
      (Touch.modifyTransfer idx fun td => ⟨rfl, rfl, rfl, rfl⟩)
    split <;> exact ⟨rfl, rfl, rfl, rfl⟩
  · intro hagrees
    refine (SameAmounts.modifyTransfer fun td htd => ?_).trans
      (SameAmounts.modifyTransfer fun _ _ => rfl)
    split
    · next hpos => exact (hagrees td htd (UInt64.ne_of_lt hpos).symm).symm
    · rfl

theorem spendKeyImage_same {kImage : KeyImage} (keyOffsets : List UInt64) :
    Ensures (fun s' => Touched acct s.wallet s'.wallet ∧
        (AmountAgrees s.wallet (.toKey amount keyOffsets kImage) →
          SameAmounts s.wallet s'.wallet))
      (fun e => Touched acct s.wallet e.1 ∧ e.2 ≠ .exit) (spendKeyImage t s amount kImage) := by
  unfold spendKeyImage
  split
  · exact ⟨.refl, fun _ => SameAmounts.refl _⟩
  · next idx hidx =>
    refine demand_bind (fun _ => ⟨.refl, by simp⟩) fun td htd => ?_
    obtain ⟨htouched, hsame⟩ : Touched acct s.wallet (s.wallet.spend idx t.height amount) ∧ _ :=
      spend_same
    exact ⟨htouched, fun hagrees => hsame fun td' htd' hamount =>
      hagrees hamount idx td' hidx htd'⟩

theorem spendInput_same {input : TxIn} :
    Ensures (fun s' => Touched acct s.wallet s'.wallet ∧
        (AmountAgrees s.wallet input → SameAmounts s.wallet s'.wallet))
      (fun e => Touched acct s.wallet e.1 ∧ e.2 ≠ .exit) (spendInput t s input) := by
  unfold spendInput
  split
  · next amount keyOffsets kImage =>
    refine (spendKeyImage_same keyOffsets).bind fun s' ⟨htouched, hsame⟩ => ?_
    split_ifs
    · exact ⟨htouched, hsame⟩
    · refine (trackUse_same.mono (fun w' hw' => hw')
        fun e he => ⟨htouched.trans he.1, he.2⟩).bind fun w' ⟨htouched', hsame'⟩ => ?_
      exact ⟨htouched.trans htouched', fun hagrees => (hsame hagrees).trans hsame'⟩
  · exact ⟨.refl, fun _ => SameAmounts.refl _⟩

/-- Spending changes no amount, where the inputs show the amounts recorded. -/
theorem spendInputs_same : ∀ (vin : List TxIn) (s : Spending),
    Ensures (fun s' => Touched acct s.wallet s'.wallet ∧
        ((∀ input ∈ vin, AmountAgrees s.wallet input) → SameAmounts s.wallet s'.wallet))
      (fun e => Touched acct s.wallet e.1 ∧ e.2 ≠ .exit) (vin.foldlM (spendInput t) s)
  | [], s => ⟨.refl, fun _ => SameAmounts.refl _⟩
  | input :: vin, s => by
    refine spendInput_same.bind fun s₁ ⟨htouched, hsame⟩ => ?_
    refine (spendInputs_same vin s₁).mono (fun s₂ ⟨htouched₂, hsame₂⟩ => ?_)
      fun e he => ⟨htouched.trans he.1, he.2⟩
    refine ⟨htouched.trans htouched₂, fun hagrees => ?_⟩
    obtain ⟨hinput, hvin⟩ := forall_mem_cons.mp hagrees
    exact (hsame hinput).trans (hsame₂ fun i hi => (hvin i hi).of_same (hsame hinput))

end Spend

section Transaction

variable {t : NewTransaction}

theorem settle_ok {fields : List TxExtraField} {p : Processing} {s : Spending}
    (htotal : p.got.total = p.totalReceived1) :
    Ensures (fun p' => Touched acct s.wallet p'.wallet ∧ SameAmounts s.wallet p'.wallet ∧
      p'.totalReceived1 = p.totalReceived1) (fun _ => False) (settle acct t fields p s) := by
  unfold settle
  simp only
  split
  · exact ⟨.refl, SameAmounts.refl _, rfl⟩
  · refine require_bind (fun hne => hne ?_) fun _ => ?_
    · have hsum := total_filter
        (fun money => decide (s.subaddrAccount = some money.1.major)) p.got
      rw [sumAmounts_eq, ← htotal, ← hsum]
      simp
    · split_ifs
      · exact ⟨.refl, SameAmounts.refl _, rfl⟩
      · exact ⟨.single ⟨rfl, TableGrown.refl _, .inr (.inr ⟨forall₂_kept_refl _, rfl, rfl⟩)⟩,
          ⟨rfl, rfl⟩,
          rfl⟩

/-- What `process_new_transaction` returns or leaves behind. -/
theorem processNewTransaction_ensures :
    Ensures (fun p => Touched acct w p.wallet ∧ ∃ p₁, receiveOutputs acct w t = .ok p₁ ∧
        Balanced acct w t p₁ ∧ p.totalReceived1 = p₁.totalReceived1 ∧
        ((∀ input ∈ t.tx.vin, AmountAgrees p₁.wallet input) → SameAmounts p₁.wallet p.wallet))
      (fun e => Touched acct w e.1 ∧ e.2 ≠ .exit) (processNewTransaction acct w t) := by
  unfold processNewTransaction
  have hbalanced : Ensures _ _ (receiveOutputs acct w t) := receiveOutputs_balanced
  cases hp : receiveOutputs acct w t with
  | error e =>
    rw [hp] at hbalanced
    exact hbalanced
  | ok p =>
    rw [hp] at hbalanced
    refine ((spendInputs_same t.tx.vin ⟨p.wallet, 0, none⟩).mono (fun _ => id) fun e he =>
      ⟨hbalanced.touched.trans he.1, he.2⟩).bind fun s ⟨htouched, hsame⟩ => ?_
    refine (settle_ok hbalanced.total).mono (fun p' ⟨htouched', hsame', htotal⟩ => ?_)
      fun _ h => h.elim
    exact ⟨(hbalanced.touched.trans htouched).trans htouched', p, rfl, hbalanced, htotal,
      fun hagrees => (hsame hagrees).trans hsame'⟩

/-- Whether it returns or throws, the wallet is only touched. -/
theorem processNewTransaction_touched : Ensures (fun p => Touched acct w p.wallet)
    (fun e => Touched acct w e.1) (processNewTransaction acct w t) :=
  processNewTransaction_ensures.mono (fun _ hp => hp.1) fun _ he => he.1

end Transaction

section Block

variable {b : ParsedBlock} {height : ℕ} {data : List TxCacheData}

theorem processBlockTransaction_touched {minerTx : Bool} {entry : (Hash × Transaction) × ℕ} :
    Ensures (Touched acct w) (fun e => Touched acct w e.1)
      (processBlockTransaction acct b height data minerTx w entry) := by
  exact demand_bind (fun _ => .refl) fun _ _ => demand_bind (fun _ => .refl)
    fun _ _ => processNewTransaction_touched.bind fun _ => id

theorem processBlockTransactions_touched :
    Ensures (Touched acct w) (fun e => Touched acct w e.1)
      (processBlockTransactions acct w b height data) := by
  refine bind (P := Touched acct w) ?_ fun w₁ h₁ => ?_
  · split
    · exact Relation.ReflTransGen.refl
    · exact processBlockTransaction_touched
  · exact require_bind (fun _ => h₁) fun _ => foldlM _ _ h₁ fun _ _ _ h₂ =>
      processBlockTransaction_touched.mono (fun _ h₃ => h₂.trans h₃) fun _ h₃ => h₂.trans h₃

theorem processNewBlockchainEntry_touched :
    Ensures (fun w₁ => ∃ w', Touched acct w w' ∧
        w₁ = { w' with blockchain := w.blockchain.pushBack b.hash })
      (fun e => Touched acct w e.1) (processNewBlockchainEntry acct w b height data) := by
  refine require_bind (fun _ => Relation.ReflTransGen.refl) fun _ => ?_
  refine bind (P := Touched acct w) ?_ fun w' h' => ⟨w', h', ?_⟩
  · split
    · exact Relation.ReflTransGen.refl
    · exact processBlockTransactions_touched
  · rw [eq_of_frame Wallet.blockchain (fun _ => rfl) h'.frame]

end Block

/-- Keys are numbers: the last two digits of an output key are the spend key of the subaddress, and
the key image is a thousand more. -/
def plainAccount : Account where
  parseTxExtra blob := blob.map fun byte => .pubKey byte.toNat
  generateKeyDerivation := some
  deriveSubaddressPublicKey outKey _ _ := outKey % 100
  subaddressSpendPublicKey index := 10 * index.major + index.minor + 1
  generateKeyImage key _ _ _ := some (key, key + 1000)
  decodeRct _ _ _ := (0, 0)
  checkRingSignature _ _ _ := true
  isInMainSubgroup _ := true
  getTransactionHash tx := tx.unlockTime.toNat
  getTransactionPrefixHash _ := 0
  getPaymentId _ _ := 0

def plainWallet : Wallet where
  watchOnly := false
  multisig := false
  passwordRefused := false
  refreshType := .full
  trackUses := false
  createtime := 0
  refreshFromBlockHeight := 0
  subaddresses key := if key = 1 then some ⟨0, 0⟩ else if key = 2 then some ⟨0, 1⟩ else none
  subaddressLabels := [[""]]
  subaddressLookaheadMajor := 1
  subaddressLookaheadMinor := 2
  transfers := []
  keyImages _ := none
  pubKeys _ := none
  coldKeyImages _ := none
  blockchain := ⟨0, 0, [0]⟩
  payments := []
  outputTrackerCache := none

def plainTransaction (txid : ℕ) (vin : List TxIn) (vout : List TxOut) : Transaction where
  version := 2
  unlockTime := UInt64.ofNat txid
  vin := vin
  vout := vout
  extra := [7]
  rctSignatures := ⟨.null, 0, [], [], [], []⟩
  pruned := false

def plainCall (height txid : ℕ) (vin : List TxIn) (vout : List TxOut) : NewTransaction where
  txid := txid
  tx := plainTransaction txid vin vout
  oIndices := List.replicate vout.length 0
  height := height
  ts := 0
  minerTx := false
  pool := false
  txCacheData := .empty

def minedBlock (height : ℕ) (amount : UInt64) (key : PublicKey) : ParsedBlock where
  hash := height
  block := ⟨1, 0, 1, 0, 0, plainTransaction height [.gen height] [⟨amount, .toKey key⟩], []⟩
  txes := []
  oIndices := [[0]]
  entryTxs := 0

end Nerva
