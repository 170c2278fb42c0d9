import BenTorrent.Model.Metainfo
import BenTorrent.Rust.IpAddrLemmas

/-!
This module contains the answers of a tracker: how they are read off a bencoded value, and that an
answer is what its entries say, whatever stands between them.
-/

open Rust

def mapDictKeys (dict : DictT) : List (String × Bencode) :=
  convertDictKeys dict

inductive TrackerPeerError where
  | file (err : FileError)
  -- a `BencodeParse` with the text of this error in the source
  | addrParse
  deriving DecidableEq

structure TrackerPeer where
  address : IpAddr
  port : UInt16
  deriving DecidableEq

structure TrackerResponse where
  interval : Int64
  peers : List TrackerPeer
  complete : Option Int64
  incomplete : Option Int64
  deriving DecidableEq

def TrackerPeer.tryFrom (value : Bencode) : Except TrackerPeerError TrackerPeer :=
  match value with
  | .dictionary dict =>
    let dict := mapDictKeys dict
    match getCollected dict "ip", getCollected dict "port" with
    | some (.byteString ip), some (.int port) =>
      match IpAddr.fromStr (asBytes ip.toString) with
      | some ip => .ok { address := ip, port := port.toUInt64.toUInt16 }
      | none => .error .addrParse
    | _, _ => .error (.file (.missing "missing peerid, ip or port"))
  | _ => .error (.file .wrongType)

namespace TrackerResponse

def intOf : Option Bencode → Option Int64
  | some (.int i) => some i
  | _ => none

def tryFrom (value : Bencode) : Except FileError TrackerResponse :=
  match value with
  | .dictionary dict =>
    let dict := mapDictKeys dict
    match getCollected dict "interval", getCollected dict "peers" with
    | some (.int interval), some (.list peers) =>
      .ok {
        interval
        -- what is no peer is left out
        peers := peers.filterMap fun peer => (TrackerPeer.tryFrom peer).toOption
        complete := intOf (getCollected dict "complete")
        incomplete := intOf (getCollected dict "incomplete")
      }
    | _, _ => .error .wrongType
  | _ => .error .wrongType

/--
What the client makes of the tracker's text.
-/
def getAnnounce (text : Bytes) : Except FileError TrackerResponse := do
  let decoded ← Bencode.parseBencode text
  tryFrom decoded

end TrackerResponse

/--
The entries of a dictionary give the peer. Of the port only the last 16 bits are taken.
-/
structure TrackerPeer.StandsIn (peer : TrackerPeer) (d : DictT) : Prop where
  address : ∃ ip, d.HoldsText "ip" ip ∧ IpAddr.fromStr (asBytes ip) = some peer.address
  port : ∃ port : Int64, d.Holds "port" (.int port) ∧ port.toInt % 2 ^ 16 = peer.port.toNat

/--
The peers are those that stand in the entries, in their order. Nothing else about an entry matters
that is no peer.
-/
inductive TrackerPeer.Listed : List Bencode → List TrackerPeer → Prop where
  | nil : Listed [] []
  | peer (peer : TrackerPeer) (d : DictT) (entries : List Bencode) (peers : List TrackerPeer)
      (hpeer : peer.StandsIn d) (hlisted : Listed entries peers)
      : Listed (.dictionary d :: entries) (peer :: peers)
  | other (entry : Bencode) (entries : List Bencode) (peers : List TrackerPeer)
      (hnone : ∀ peer d, entry = .dictionary d → ¬StandsIn peer d) (hlisted : Listed entries peers)
      : Listed (entry :: entries) peers

structure TrackerResponse.StandsIn (response : TrackerResponse) (d : DictT) : Prop where
  interval : d.Holds "interval" (.int response.interval)
  peers : ∃ entries, d.Holds "peers" (.list entries) ∧ TrackerPeer.Listed entries response.peers
  complete : ∀ i, response.complete = some i ↔ d.Holds "complete" (.int i)
  incomplete : ∀ i, response.incomplete = some i ↔ d.Holds "incomplete" (.int i)

theorem toNat_toUInt16 (port : Int64)
    : (port.toUInt64.toUInt16.toNat : Int) = port.toInt % 2 ^ 16 := by
  have hint : port.toInt = port.toBitVec.toInt := rfl
  have hnat : port.toUInt64.toNat = port.toBitVec.toNat := rfl
  rw [UInt64.toNat_toUInt16, hint, hnat, BitVec.toInt_eq_toNat_cond]
  split
  . omega
  . omega

theorem Bencode.WellFormed.sorted {d : DictT} (hd : Bencode.WellFormed (.dictionary d))
    : BTreeMap.Sorted d := by
  cases hd with
  | dictionary _ hsorted => exact hsorted

namespace TrackerPeer

theorem tryFrom_eq_ok_iff {d : DictT} (hsorted : BTreeMap.Sorted d) (peer : TrackerPeer)
    : tryFrom (.dictionary d) = .ok peer ↔ peer.StandsIn d := by
  have hip := getCollected_eq_some_iff hsorted "ip" (by simp)
  have hport := getCollected_eq_some_iff hsorted "port" (by simp)
  unfold tryFrom mapDictKeys
  dsimp only
  constructor
  . intro h
    split at h
    . next ip port hgetIp hgetPort =>
      split at h
      . next address haddress =>
        rw [Except.ok.injEq] at h
        subst h
        exact ⟨⟨ip.toString, ⟨ip.elements, (hip _).mp hgetIp, rfl⟩, haddress⟩,
          ⟨port, (hport _).mp hgetPort, (toNat_toUInt16 port).symm⟩⟩
      . contradiction
    . contradiction
  . intro ⟨⟨ip, ⟨elements, hholds, htext⟩, haddress⟩, ⟨port, hholdsPort, heq⟩⟩
    rw [(hip _).mpr hholds, (hport _).mpr hholdsPort]
    dsimp only
    unfold ByteString.toString
    rw [htext, haddress]
    have hport' : port.toUInt64.toUInt16 = peer.port := by
      rw [← toNat_toUInt16, Nat.cast_inj] at heq
      exact UInt16.toNat_inj.mp heq
    rw [hport']

theorem toOption_tryFrom {entry : Bencode} (hentry : Bencode.WellFormed entry)
    (peer : TrackerPeer)
    : (tryFrom entry).toOption = some peer ↔ ∃ d, entry = .dictionary d ∧ peer.StandsIn d := by
  have hoption : (tryFrom entry).toOption = some peer ↔ tryFrom entry = .ok peer := by
    cases tryFrom entry with
    | ok peer' => simp [Except.toOption]
    | error e => simp [Except.toOption]
  rw [hoption]
  constructor
  . intro h
    cases entry with
    | dictionary d => exact ⟨d, rfl, (tryFrom_eq_ok_iff hentry.sorted peer).mp h⟩
    | _ => contradiction
  . intro ⟨d, heq, hstands⟩
    subst heq
    exact (tryFrom_eq_ok_iff hentry.sorted peer).mpr hstands

theorem standsIn_of_text {peer : TrackerPeer} {d : DictT} (port : Int64)
    (hip : d.Holds "ip" (.byteString ⟨peer.address.text⟩)) (hport : d.Holds "port" (.int port))
    (heq : port.toInt % 2 ^ 16 = peer.port.toNat)
    : peer.StandsIn d := by
  refine ⟨⟨_, ⟨_, hip, rfl⟩, ?_⟩, port, hport, heq⟩
  rw [asBytes_fromUtf8Lossy peer.address.text_ascii, IpAddr.fromStr_text]

theorem listed_iff {entries : List Bencode}
    (hentries : ∀ entry ∈ entries, Bencode.WellFormed entry) (peers : List TrackerPeer)
    : Listed entries peers
        ↔
      entries.filterMap (fun peer => (tryFrom peer).toOption) = peers := by
  constructor
  . intro h
    induction h with
    | nil => rfl
    | peer peer d entries peers hpeer _ ih =>
      rw [List.forall_mem_cons] at hentries
      have hsome := (toOption_tryFrom hentries.1 peer).mpr ⟨d, rfl, hpeer⟩
      rw [List.filterMap_cons, hsome, ih hentries.2]
    | other entry entries peers hnone _ ih =>
      rw [List.forall_mem_cons] at hentries
      have hnot : (tryFrom entry).toOption = none := by
        rw [Option.eq_none_iff_forall_ne_some]
        intro peer hsome
        obtain ⟨d, heq, hstands⟩ := (toOption_tryFrom hentries.1 peer).mp hsome
        exact hnone peer d heq hstands
      rw [List.filterMap_cons, hnot, ih hentries.2]
  . intro h
    subst h
    induction entries with
    | nil => exact .nil
    | cons entry entries ih =>
      rw [List.forall_mem_cons] at hentries
      rw [List.filterMap_cons]
      split
      . next hnone =>
        refine .other entry _ _ ?_ (ih hentries.2)
        intro peer d heq hstands
        rw [(toOption_tryFrom hentries.1 peer).mpr ⟨d, heq, hstands⟩] at hnone
        contradiction
      . next peer hsome =>
        obtain ⟨d, heq, hstands⟩ := (toOption_tryFrom hentries.1 peer).mp hsome
        subst heq
        exact .peer peer d _ _ hstands (ih hentries.2)

end TrackerPeer

namespace TrackerResponse

theorem intOf_eq_some_iff {d : DictT} (hsorted : BTreeMap.Sorted d) (key : String)
    (hkey : ∀ c ∈ key.toList, c.toNat < 128) (i : Int64)
    : intOf (getCollected (convertDictKeys d) key) = some i ↔ d.Holds key (.int i) := by
  rw [← getCollected_eq_some_iff hsorted key hkey]
  unfold intOf
  split
  . next hget =>
    rw [hget, Option.some.injEq, Option.some.injEq, Bencode.int.injEq]
  . next hnone =>
    simp only [reduceCtorEq, false_iff]
    intro hget
    exact hnone i hget

theorem tryFrom_eq_ok_iff {d : DictT} (hd : Bencode.WellFormed (.dictionary d))
    (response : TrackerResponse)
    : tryFrom (.dictionary d) = .ok response ↔ response.StandsIn d := by
  have hsorted := hd.sorted
  have hinterval := getCollected_eq_some_iff hsorted "interval" (by simp)
  have hpeers := getCollected_eq_some_iff hsorted "peers" (by simp)
  have hcomplete := intOf_eq_some_iff hsorted "complete" (by simp)
  have hincomplete := intOf_eq_some_iff hsorted "incomplete" (by simp)
  have hentries : ∀ {entries}, d.Holds "peers" (.list entries) →
      ∀ entry ∈ entries, Bencode.WellFormed entry := by
    intro entries hholds
    cases hd with
    | dictionary _ _ _ hvals =>
      cases hvals _ hholds with
      | list _ hl => exact hl
  unfold tryFrom mapDictKeys
  dsimp only
  constructor
  . intro h
    split at h
    . next interval entries hgetInterval hgetPeers =>
      rw [Except.ok.injEq] at h
      subst h
      have hlist := (hpeers _).mp hgetPeers
      exact ⟨(hinterval _).mp hgetInterval,
        ⟨entries, hlist, (TrackerPeer.listed_iff (hentries hlist) _).mpr rfl⟩, hcomplete, hincomplete⟩
    . contradiction
  . intro ⟨hholds, ⟨entries, hlist, hlisted⟩, hcomplete', hincomplete'⟩
    rw [(hinterval _).mpr hholds, (hpeers _).mpr hlist]
    dsimp only
    rw [(TrackerPeer.listed_iff (hentries hlist) _).mp hlisted]
    have heq : intOf (getCollected (convertDictKeys d) "complete") = response.complete := by
      apply Option.ext
      intro i
      rw [hcomplete, hcomplete']
    have heq' : intOf (getCollected (convertDictKeys d) "incomplete") = response.incomplete := by
      apply Option.ext
      intro i
      rw [hincomplete, hincomplete']
    rw [heq, heq']

/--
The tracker's text is read as the answer that stands in it and as no other, and only if one does.
-/
theorem getAnnounce_encode_iff {d : DictT} {response : TrackerResponse}
    (hd : Bencode.WellFormed (.dictionary d)) (rest : Bytes)
    : getAnnounce (Bencode.encode (.dictionary d) ++ rest) = .ok response
        ↔
      response.StandsIn d := by
  unfold getAnnounce
  rw [Bencode.parseBencode_encode_append hd]
  exact tryFrom_eq_ok_iff hd response

/--
Of the four entries one is no dictionary and one has no port. The other two are peers, with a port that
is cut off and with an entry of another name.
-/
theorem getAnnounce_encode_iff_twoPeers
    : ∃ (d : DictT) (v4 : Ipv4Addr) (v6 : Ipv6Addr) (response : TrackerResponse),
        response.peers = [⟨.v4 v4, 1⟩, ⟨.v6 v6, 6881⟩]
          ∧ getAnnounce (Bencode.encode (.dictionary d) ++ [10]) = .ok response := by
  let v4 : Ipv4Addr := ⟨185, 125, 190, 59⟩
  let v6 : Ipv6Addr := ⟨[8193, 1136, 31363, 0, 0, 0, 0, 1], rfl⟩
  let first : DictT := [(⟨asBytes "ip"⟩, .byteString ⟨(IpAddr.v4 v4).text⟩),
    (⟨asBytes "port"⟩, .int 65537)]
  let noPort : DictT := [(⟨asBytes "ip"⟩, .byteString ⟨(IpAddr.v4 v4).text⟩)]
  let second : DictT := [(⟨asBytes "ip"⟩, .byteString ⟨(IpAddr.v6 v6).text⟩),
    (⟨asBytes "peer id"⟩, .byteString ⟨[255]⟩), (⟨asBytes "port"⟩, .int 6881)]
  let entries : List Bencode := [.dictionary first, .int 7, .dictionary noPort, .dictionary second]
  let d : DictT := [(⟨asBytes "interval"⟩, .int 1800), (⟨asBytes "peers"⟩, .list entries)]
  let response : TrackerResponse := {
    interval := 1800
    peers := [⟨.v4 v4, 1⟩, ⟨.v6 v6, 6881⟩]
    complete := none
    incomplete := none
  }
  have hentries : ∀ entry ∈ entries, Bencode.WellFormed entry := by
    simp only [entries, List.forall_mem_cons, List.not_mem_nil, false_imp_iff, implies_true, and_true]
    refine ⟨.dictionary _ (by decide) (by decide) ?_, .int _, .dictionary _ (by decide) (by decide) ?_,
      .dictionary _ (by decide) (by decide) ?_⟩
    . simp only [first, List.forall_mem_cons, List.not_mem_nil, false_imp_iff, implies_true, and_true]
      exact ⟨.byteString _ (by decide), .int _⟩
    . simp only [noPort, List.forall_mem_cons, List.not_mem_nil, false_imp_iff, implies_true, and_true]
      exact .byteString _ (by decide)
    . simp only [second, List.forall_mem_cons, List.not_mem_nil, false_imp_iff, implies_true, and_true]
      exact ⟨.byteString _ (by decide), .byteString _ (by decide), .int _⟩
  have hd : Bencode.WellFormed (.dictionary d) := by
    apply Bencode.WellFormed.dictionary _ (by decide) (by decide)
    simp only [d, List.forall_mem_cons, List.not_mem_nil, false_imp_iff, implies_true, and_true]
    exact ⟨.int _, .list _ hentries⟩
  have hlisted : TrackerPeer.Listed entries response.peers := by
    apply TrackerPeer.Listed.peer
    . exact TrackerPeer.standsIn_of_text 65537 (by simp [DictT.Holds, first])
        (by simp [DictT.Holds, first]) (by decide)
    . apply TrackerPeer.Listed.other
      . intro peer d heq
        contradiction
      . apply TrackerPeer.Listed.other
        . intro peer d heq hstands
          obtain ⟨port, hholds, _⟩ := hstands.port
          cases heq
          simp [DictT.Holds, noPort] at hholds
        . apply TrackerPeer.Listed.peer _ _ _ _ _ .nil
          exact TrackerPeer.standsIn_of_text 6881 (by simp [DictT.Holds, second])
            (by simp [DictT.Holds, second]) (by decide)
  have hstands : response.StandsIn d := by
    constructor
    . simp [DictT.Holds, d, response]
    . exact ⟨entries, by simp [DictT.Holds, d], hlisted⟩
    . simp [DictT.Holds, d, response]
      decide
    . simp [DictT.Holds, d, response]
      decide
  exact ⟨d, v4, v6, response, rfl, (getAnnounce_encode_iff hd [10]).mpr hstands⟩

end TrackerResponse
