import Hamn.Lib.Staging
import Hamn.Host.Profile
import Hamn.Host.DockerObserver

/-!
# DockerSnapshot — the published ports in the answers of Docker (`host/fwd/docker_observer.c`)

The list of containers carries every published port; an inspection carries the ports of one container.  Both readers
stage the ports and hand them over only when the whole answer was read.  cJSON is a parameter, which gives the items of
an accepted text.

* `parseInspect`, `parseList`: the two readers.
* `Inspected`, `Snapshot`: what the answers say, without an order of checks.
* `parseInspect_iff`, `parseList_iff`: what is accepted, and which ports come out.
* `parseList_overflow`: the error for too many ports.
-/

open Bytes Result
open Hamn.Host (strtoul)

namespace Hamn.Forward

/-! ## cJSON -/

/-- A `cJSON` item of a text; `valuedouble` is `none` where it is infinite.  The members of an object have their key. -/
inductive CJsonItem where
  | null
  | false
  | true
  | number (valuedouble : Option ℚ) (valueint : ℤ)
  | string (valuestring : Bytes)
  | array (child : List CJsonItem)
  | object (child : List (Bytes × CJsonItem))

/-- `cJSON_GetObjectItemCaseSensitive` -/
def objectItem (name : Bytes) : List (Bytes × CJsonItem) → Option CJsonItem
  | [] => none
  | (string, item) :: next => if string = name then some item else objectItem name next

/-! ## Reading the ports -/

/-- The reasons that the caller tells apart. -/
inductive SnapshotError where
  /-- `EINVAL` -/
  | invalid
  /-- `EPROTO` -/
  | protocol
  /-- `EOVERFLOW` -/
  | overflow
  deriving DecidableEq

def DOCKER_OBSERVER_MAX_PORTS : ℕ := 128

def DOCKER_SNAPSHOT_MAX_CONTAINERS : ℕ := 2048

def portNumberParse (text : Bytes) : Option ℕ :=
  match strtoul text with
  | some (value, []) => if value = 0 ∨ 65535 < value then none else some value
  | _ => none

/-- The loop of `object_unique_item`. -/
def uniqueItem (name : Bytes) : Option CJsonItem → List (Bytes × CJsonItem) → Option (Option CJsonItem)
  | found, [] => some found
  | found, (string, item) :: next =>
    if string = name then
      match found with
      | some _ => none
      | none => uniqueItem name (some item) next
    else uniqueItem name found next

/-- The member of a name, where there is one; `none` for no object and for a name that is there twice. -/
def objectUniqueItem (object : Option CJsonItem) (name : String) : Option (Option CJsonItem) :=
  match object with
  | some (.object child) => uniqueItem (ascii name) none child
  | _ => none

/-- `strrchr`: what stands before the last `c`, and behind it. -/
def strrchr (c : UInt8) : Bytes → Option (Bytes × Bytes)
  | [] => none
  | b :: text =>
    match strrchr c text with
    | some (before, behind) => some (b :: before, behind)
    | none => if b = c then some ([], text) else none

def PORT_TEXT_BYTES : ℕ := 16

/-- A key such as `80/tcp`; the protocol is `none` where it is neither of the two. -/
def inspectPortKey (text : Bytes) : Option (ℕ × Option PortProtocol) :=
  match strrchr (byte '/') text with
  | none => none
  | some (port, name) =>
    if port = [] ∨ name = [] ∨ PORT_TEXT_BYTES ≤ port.length then none
    else
      match portNumberParse port with
      | none => none
      | some containerPort =>
        if name = ascii "tcp" then some (containerPort, some .tcp)
        else if name = ascii "udp" then some (containerPort, some .udp)
        else some (containerPort, none)

def appendSpec (capacity : ℕ) (specs : List PortSpec) (candidate : PortSpec) : Except SnapshotError (List PortSpec) :=
  if capacity ≤ specs.length ∨ DOCKER_OBSERVER_MAX_PORTS ≤ specs.length then .error .overflow
  else if specs.any (sameListener · candidate) then .error .protocol
  else .ok (specs ++ [candidate])

/-- The address that an empty text stands for. -/
def addressText (text : Bytes) : Bytes := if text = [] then ascii "0.0.0.0" else text

def HOST_IP_BYTES : ℕ := 64

def appendBinding (containerPort : ℕ) (protocol : PortProtocol) (capacity : ℕ) (specs : List PortSpec)
    (binding : CJsonItem) : Except SnapshotError (List PortSpec) :=
  match objectUniqueItem (some binding) "HostIp", objectUniqueItem (some binding) "HostPort" with
  | some (some (.string hostIp)), some (some (.string hostPort)) =>
    let ip := addressText hostIp
    if inetPton ip = none then
      -- an address of the other family has no relay
      if byte ':' ∈ ip then .ok specs else .error .protocol
    else if HOST_IP_BYTES ≤ ip.length then .error .protocol
    else
      match portNumberParse hostPort with
      | none => .error .protocol
      | some hostPort => appendSpec capacity specs ⟨ip, hostPort, containerPort, protocol⟩
  | _, _ => .error .protocol

/-- An entry of `Ports` behind the entries `previous`. -/
def inspectEntry (capacity : ℕ) (previous : List (Bytes × CJsonItem)) (staged : List PortSpec)
    (entry : Bytes × CJsonItem) : Except SnapshotError (List PortSpec) :=
  match inspectPortKey entry.1 with
  | none => .error .protocol
  | some (containerPort, protocol) =>
    if previous.any (fun other => other.1 = entry.1) then .error .protocol
    else
      match protocol, entry.2 with
      | none, _ => .ok staged
      | some _, .null => .ok staged
      | some protocol, .array child =>
        Staging.walk (fun _ => appendBinding containerPort protocol capacity) [] staged child
      | some _, _ => .error .protocol

/-- `docker_observer_parse_inspect`: the ports behind those in `specs`. -/
def parseInspect (parse : Bytes → Option CJsonItem) (json : Bytes) (specs : List PortSpec) (capacity : ℕ) :
    Except SnapshotError (List PortSpec) :=
  if capacity = 0 ∨ DOCKER_OBSERVER_MAX_PORTS < capacity ∨ capacity < specs.length then .error .invalid
  else
    match objectUniqueItem (parse json) "NetworkSettings" with
    | none => .error .protocol
    | some network =>
      match objectUniqueItem network "Ports" with
      | some (some (.object child)) => Staging.walk (inspectEntry capacity) [] specs child
      | _ => .error .protocol

def isXDigit (c : UInt8) : Bool := isDecimal c || (65 ≤ c && c ≤ 70) || (97 ≤ c && c ≤ 102)

def containerIdValid (id : Bytes) : Bool := 12 ≤ id.length && id.length ≤ 64 && id.all isXDigit

def jsonPort : Option CJsonItem → Option ℕ
  | some (.number (some valuedouble) valueint) =>
    if valuedouble < 1 ∨ 65535 < valuedouble ∨ valuedouble ≠ valueint then none else some valueint.toNat
  | _ => none

/-- The types of a port; `sctp` has no relay. -/
def summaryType (type : Bytes) : Option (Option PortProtocol) :=
  if type = ascii "tcp" then some (some .tcp)
  else if type = ascii "udp" then some (some .udp)
  else if type = ascii "sctp" then some none
  else none

/-- One port of a container; `inet6` is `inet_pton` for `AF_INET6`. -/
def appendSummaryPort (inet6 : Bytes → Bool) (capacity : ℕ) (specs : List PortSpec) (entry : CJsonItem) :
    Except SnapshotError (List PortSpec) :=
  match objectUniqueItem (some entry) "IP", objectUniqueItem (some entry) "PrivatePort",
    objectUniqueItem (some entry) "PublicPort", objectUniqueItem (some entry) "Type" with
  | some ip, some privatePort, some publicPort, some (some (.string type)) =>
    match jsonPort privatePort, summaryType type with
    | some containerPort, some protocol =>
      match publicPort with
      -- exposed and not published
      | none => .ok specs
      | some publicPort =>
        match jsonPort (some publicPort), ip with
        | some hostPort, some (.string ip) =>
          let address := addressText ip
          if inetPton address = none then
            if inet6 address then .ok specs else .error .protocol
          else
            match protocol with
            | none => .ok specs
            | some protocol => appendSpec capacity specs ⟨address, hostPort, containerPort, protocol⟩
        | _, _ => .error .protocol
    | _, _ => .error .protocol
  | _, _, _, _ => .error .protocol

/-- The `Id` as the check against the containers before reads it. -/
def containerId : CJsonItem → Option Bytes
  | .object child =>
    match objectItem (ascii "Id") child with
    | some (.string id) => some id
    | _ => none
  | _ => none

/-- A container behind the containers `previous`. -/
def listContainer (inet6 : Bytes → Bool) (capacity : ℕ) (previous : List CJsonItem) (staged : List PortSpec)
    (container : CJsonItem) : Except SnapshotError (List PortSpec) :=
  match objectUniqueItem (some container) "Id" with
  | some (some (.string id)) =>
    if containerIdValid id then
      match objectUniqueItem (some container) "Ports" with
      | some (some (.array ports)) =>
        if previous.any (fun other => containerId other = some id) then .error .protocol
        else Staging.walk (fun _ => appendSummaryPort inet6 capacity) [] staged ports
      | _ => .error .protocol
    else .error .protocol
  | _ => .error .protocol

/-- `docker_observer_parse_list` -/
def parseList (parse : Bytes → Option CJsonItem) (inet6 : Bytes → Bool) (json : Bytes) (capacity : ℕ) :
    Except SnapshotError (List PortSpec) :=
  if capacity = 0 ∨ DOCKER_OBSERVER_MAX_PORTS < capacity then .error .invalid
  else
    match parse json with
    | some (.array containers) =>
      if DOCKER_SNAPSHOT_MAX_CONTAINERS < containers.length then .error .overflow
      else Staging.walk (listContainer inet6 capacity) [] [] containers
    | _ => .error .protocol

/-! ## What an answer says -/

/-- The value of a name that at most one member has. -/
def Member (child : List (Bytes × CJsonItem)) (name : String) (item : Option CJsonItem) : Prop :=
  (child.filter fun m => m.1 = ascii name).map Prod.snd = item.toList

/-- The text of a key, with the protocol where Hamn relays it. -/
structure PortKey (text : Bytes) (containerPort : ℕ) (protocol : Option PortProtocol) : Prop where
  parts : ∃ port name, text = port ++ byte '/' :: name ∧ byte '/' ∉ name ∧ name ≠ [] ∧ port.length < 16 ∧
    portNumberParse port = some containerPort ∧ ∀ p, protocol = some p ↔ name = protocolName p

/-- A binding of an inspection, and the port that it publishes. -/
inductive BindingPort (containerPort : ℕ) (protocol : PortProtocol) : CJsonItem → List PortSpec → Prop where
  | published {child : List (Bytes × CJsonItem)} {hostIp hostPort : Bytes} {port : ℕ}
      (ip : Member child "HostIp" (some (.string hostIp))) (text : Member child "HostPort" (some (.string hostPort)))
      (address : inetPton (addressText hostIp) ≠ none) (number : portNumberParse hostPort = some port) :
      BindingPort containerPort protocol (.object child) [⟨addressText hostIp, port, containerPort, protocol⟩]
  | otherFamily {child : List (Bytes × CJsonItem)} {hostIp hostPort : Bytes}
      (ip : Member child "HostIp" (some (.string hostIp))) (text : Member child "HostPort" (some (.string hostPort)))
      (address : inetPton (addressText hostIp) = none) (colon : byte ':' ∈ addressText hostIp) :
      BindingPort containerPort protocol (.object child) []

/-- An entry of `Ports` of an inspection, and the ports that it publishes. -/
inductive InspectPort : Bytes × CJsonItem → List PortSpec → Prop where
  | otherProtocol {text : Bytes} {containerPort : ℕ} {item : CJsonItem} (key : PortKey text containerPort none) :
      InspectPort (text, item) []
  | unpublished {text : Bytes} {containerPort : ℕ} {protocol : PortProtocol}
      (key : PortKey text containerPort (some protocol)) : InspectPort (text, .null) []
  | published {text : Bytes} {containerPort : ℕ} {protocol : PortProtocol} {bindings : List CJsonItem}
      {ports : List (List PortSpec)} (key : PortKey text containerPort (some protocol))
      (each : List.Forall₂ (BindingPort containerPort protocol) bindings ports) :
      InspectPort (text, .array bindings) ports.flatten

/-- An inspection, and the ports that it publishes in the order of the document. -/
structure Inspected (root : CJsonItem) (specs : List PortSpec) : Prop where
  entries : ∃ child network entries ports, root = .object child ∧
    Member child "NetworkSettings" (some (.object network)) ∧ Member network "Ports" (some (.object entries)) ∧
    entries.Pairwise (fun a b => a.1 ≠ b.1) ∧ List.Forall₂ InspectPort entries ports ∧ specs = ports.flatten

/-- The type of a port. -/
def typeName : Option PortProtocol → Bytes
  | some protocol => protocolName protocol
  | none => ascii "sctp"

/-- A member that holds a port. -/
def PortMember (child : List (Bytes × CJsonItem)) (name : String) (port : ℕ) : Prop :=
  Member child name (some (.number (some port) port)) ∧ 0 < port ∧ port ≤ 65535

/-- The address of a published port. -/
structure Address (child : List (Bytes × CJsonItem)) (ip : Bytes) (hostPort : ℕ) : Prop where
  ip : Member child "IP" (some (.string ip))
  hostPort : PortMember child "PublicPort" hostPort

/-- The members of a port that every port has. -/
structure Exposed (child : List (Bytes × CJsonItem)) (containerPort : ℕ) (protocol : Option PortProtocol) : Prop where
  ip : ∃ item, Member child "IP" item
  containerPort : PortMember child "PrivatePort" containerPort
  type : Member child "Type" (some (.string (typeName protocol)))

/-- A port in the list of containers, and the spec of it where Hamn relays it. -/
inductive SummaryPort (inet6 : Bytes → Bool) : CJsonItem → List PortSpec → Prop where
  | unpublished {child : List (Bytes × CJsonItem)} {containerPort : ℕ} {protocol : Option PortProtocol}
      (exposed : Exposed child containerPort protocol) (absent : Member child "PublicPort" none) :
      SummaryPort inet6 (.object child) []
  | otherFamily {child : List (Bytes × CJsonItem)} {containerPort hostPort : ℕ} {protocol : Option PortProtocol}
      {ip : Bytes} (exposed : Exposed child containerPort protocol) (place : Address child ip hostPort)
      (address : inetPton (addressText ip) = none) (six : inet6 (addressText ip) = true) :
      SummaryPort inet6 (.object child) []
  | otherProtocol {child : List (Bytes × CJsonItem)} {containerPort hostPort : ℕ} {ip : Bytes}
      (exposed : Exposed child containerPort none) (place : Address child ip hostPort)
      (address : inetPton (addressText ip) ≠ none) : SummaryPort inet6 (.object child) []
  | published {child : List (Bytes × CJsonItem)} {containerPort hostPort : ℕ} {protocol : PortProtocol} {ip : Bytes}
      (exposed : Exposed child containerPort (some protocol)) (place : Address child ip hostPort)
      (address : inetPton (addressText ip) ≠ none) :
      SummaryPort inet6 (.object child) [⟨addressText ip, hostPort, containerPort, protocol⟩]

/-- A container in the list, with its identifier and the specs of its ports. -/
inductive Container (inet6 : Bytes → Bool) : CJsonItem → Bytes → List PortSpec → Prop where
  | intro {child : List (Bytes × CJsonItem)} {id : Bytes} {items : List CJsonItem} {ports : List (List PortSpec)}
      (named : Member child "Id" (some (.string id))) (valid : containerIdValid id = true)
      (listed : Member child "Ports" (some (.array items))) (each : List.Forall₂ (SummaryPort inet6) items ports) :
      Container inet6 (.object child) id ports.flatten

/-- The containers of a list, and the specs of their ports in the order of the document. -/
structure Snapshot (inet6 : Bytes → Bool) (containers : List CJsonItem) (specs : List PortSpec) : Prop where
  ids : containers.Pairwise fun a b => containerId a ≠ containerId b
  containers : ∃ ports, List.Forall₂ (fun container b => ∃ id, Container inet6 container id b) containers ports ∧
    specs = ports.flatten

/-- The specs are of different listeners. -/
def Listeners (specs : List PortSpec) : Prop := specs.Pairwise fun a b => sameListener a b = false

/-! ## Reading members -/

variable {capacity : ℕ} {specs staged t : List PortSpec}

theorem uniqueItem_eq_some {name : Bytes} {child : List (Bytes × CJsonItem)} :
    ∀ {found item : Option CJsonItem}, uniqueItem name found child = some item ↔
      found.toList ++ (child.filter fun m => m.1 = name).map Prod.snd = item.toList := by
  induction child with
  | nil =>
    intro found item
    cases found <;> cases item <;> simp [uniqueItem]
  | cons m next ih =>
    intro found item
    obtain ⟨string, value⟩ := m
    by_cases hkey : string = name
    · subst hkey
      cases found with
      | none =>
        simp only [uniqueItem, if_true, ih, List.filter_cons, decide_true, List.map_cons, Option.toList_none,
          Option.toList_some, List.nil_append, List.singleton_append]
      | some v =>
        simp only [uniqueItem, if_true, List.filter_cons, decide_true, List.map_cons, Option.toList_some]
        constructor
        · intro h
          cases h
        · intro h
          have hlength := congrArg List.length h
          cases item <;> simp at hlength
    · simp only [uniqueItem, hkey, if_false, ih, List.filter_cons, decide_false]
      simp

theorem objectUniqueItem_eq_some {object item : Option CJsonItem} {name : String} :
    objectUniqueItem object name = some item ↔
      ∃ child, object = some (.object child) ∧ Member child name item := by
  constructor
  · intro h
    unfold objectUniqueItem at h
    split at h
    · next child => exact ⟨child, rfl, by simpa [Member] using uniqueItem_eq_some.mp h⟩
    · cases h
  · rintro ⟨child, rfl, h⟩
    exact uniqueItem_eq_some.mpr (by simpa [Member] using h)

theorem portNumberParse_range {text : Bytes} {n : ℕ} (h : portNumberParse text = some n) : 0 < n ∧ n ≤ 65535 := by
  unfold portNumberParse at h
  split at h
  · split_ifs at h with hrange
    cases h
    omega
  · cases h

theorem portNumberParse_nil : portNumberParse [] = none := rfl

theorem protocolName_injective {a b : PortProtocol} (h : protocolName a = protocolName b) : a = b := by
  cases a <;> cases b <;> first | rfl | exact absurd h (by decide)

theorem strrchr_eq_none {c : UInt8} {text : Bytes} (h : strrchr c text = none) : c ∉ text := by
  induction text with
  | nil => simp
  | cons b text ih =>
    unfold strrchr at h
    split at h
    · cases h
    · next hnone =>
      split_ifs at h with hb
      rw [List.mem_cons, not_or]
      exact ⟨Ne.symm hb, ih hnone⟩

theorem strrchr_eq_some {c : UInt8} {text before behind : Bytes} :
    strrchr c text = some (before, behind) ↔ text = before ++ c :: behind ∧ c ∉ behind := by
  induction text generalizing before behind with
  | nil =>
    simp only [strrchr, reduceCtorEq, false_iff, not_and]
    intro h
    cases before <;> cases h
  | cons b text ih =>
    unfold strrchr
    split
    · next before' behind' hsome =>
      obtain ⟨rfl, hbehind⟩ := ih.mp hsome
      constructor
      · intro h
        cases h
        exact ⟨rfl, hbehind⟩
      · rintro ⟨h, hnot⟩
        cases before with
        | nil =>
          cases h
          exact absurd (by simp) hnot
        | cons b' before =>
          rw [List.cons_append, List.cons.injEq] at h
          have := hsome.symm.trans (ih.mpr ⟨h.2, hnot⟩)
          cases this
          rw [h.1]
    · next hnone =>
      have hc : c ∉ text := strrchr_eq_none hnone
      constructor
      · intro h
        split_ifs at h with hb
        cases h
        exact ⟨by rw [hb, List.nil_append], hc⟩
      · rintro ⟨h, -⟩
        cases before with
        | nil =>
          rw [List.nil_append, List.cons.injEq] at h
          rw [if_pos h.1, h.2]
        | cons b' before =>
          rw [List.cons_append, List.cons.injEq] at h
          exact absurd (by rw [h.2]; simp) hc

/-- The name of a key, as the reader tells the protocols apart. -/
theorem protocol_of_name (name : Bytes) (n : ℕ) :
    ∃ protocol, (if name = ascii "tcp" then some (n, some PortProtocol.tcp)
      else if name = ascii "udp" then some (n, some PortProtocol.udp) else some (n, none)) = some (n, protocol) ∧
        ∀ p, protocol = some p ↔ name = protocolName p := by
  by_cases htcp : name = ascii "tcp"
  · refine ⟨some .tcp, if_pos htcp, fun p => ?_⟩
    rw [htcp, Option.some.injEq]
    exact ⟨fun h => by rw [← h]; rfl, fun h => protocolName_injective h⟩
  · by_cases hudp : name = ascii "udp"
    · refine ⟨some .udp, by rw [if_neg htcp, if_pos hudp], fun p => ?_⟩
      rw [hudp, Option.some.injEq]
      exact ⟨fun h => by rw [← h]; rfl, fun h => protocolName_injective h⟩
    · refine ⟨none, by rw [if_neg htcp, if_neg hudp], fun p => ⟨fun h => absurd h (by simp), fun h => ?_⟩⟩
      cases p with
      | tcp => exact absurd h htcp
      | udp => exact absurd h hudp

theorem inspectPortKey_eq_some {text : Bytes} {n : ℕ} {protocol : Option PortProtocol} :
    inspectPortKey text = some (n, protocol) ↔ PortKey text n protocol := by
  constructor
  · intro h
    unfold inspectPortKey at h
    split at h
    · cases h
    · next port name hsplit =>
      obtain ⟨rfl, hslash⟩ := strrchr_eq_some.mp hsplit
      obtain ⟨hbad, h⟩ := else_of_eq h (by simp)
      simp only [not_or, not_le, PORT_TEXT_BYTES] at hbad
      split at h
      · cases h
      · next containerPort hport =>
        obtain ⟨protocol', heq, hprotocol⟩ := protocol_of_name name containerPort
        rw [heq] at h
        cases h
        exact ⟨port, name, rfl, hslash, hbad.2.1, hbad.2.2, hport, hprotocol⟩
  · rintro ⟨⟨port, name, rfl, hslash, hname, hshort, hport, hprotocol⟩⟩
    have hne : port ≠ [] := by
      rintro rfl
      rw [portNumberParse_nil] at hport
      cases hport
    obtain ⟨protocol', heq, hprotocol'⟩ := protocol_of_name name n
    have : protocol' = protocol := Option.ext fun p => by
      rw [hprotocol', hprotocol]
    unfold inspectPortKey
    simp only [strrchr_eq_some.mpr ⟨rfl, hslash⟩]
    rw [if_neg (by simp only [not_or, not_le, PORT_TEXT_BYTES]; exact ⟨hne, hname, hshort⟩)]
    simp only [hport]
    rw [heq, this]

theorem appendSpec_eq_ok (hcap : capacity ≤ DOCKER_OBSERVER_MAX_PORTS) {c : PortSpec} (hs : Listeners specs) :
    appendSpec capacity specs c = .ok t ↔
      t = specs ++ [c] ∧ (specs ++ [c]).length ≤ capacity ∧ Listeners (specs ++ [c]) := by
  have hlisteners : Listeners (specs ++ [c]) ↔ specs.any (sameListener · c) = false := by
    simp [Listeners, List.pairwise_append, show specs.Pairwise _ from hs]
  unfold appendSpec
  rw [hlisteners, List.length_append, List.length_singleton]
  unfold DOCKER_OBSERVER_MAX_PORTS at hcap ⊢
  split_ifs with hfull hsame
  · simp only [false_iff]
    omega
  · simp [hsame]
  · rw [Except.ok.injEq]
    constructor
    · rintro rfl
      exact ⟨rfl, by omega, by simpa using hsame⟩
    · rintro ⟨rfl, -⟩
      rfl

/-- The ports fit, or the first that does not ends the reading. -/
theorem appendSpecs_eq_ok (hcap : capacity ≤ DOCKER_OBSERVER_MAX_PORTS) {added : List PortSpec} :
    ∀ {specs : List PortSpec}, Listeners specs → specs.length ≤ capacity →
      (added.foldlM (appendSpec capacity) specs = .ok t ↔
        t = specs ++ added ∧ (specs ++ added).length ≤ capacity ∧ Listeners (specs ++ added)) := by
  induction added with
  | nil =>
    intro specs hs hlength
    simp only [List.foldlM_nil, List.append_nil]
    constructor
    · intro h
      cases h
      exact ⟨rfl, hlength, hs⟩
    · rintro ⟨rfl, -⟩
      rfl
  | cons c added ih =>
    intro specs hs hlength
    rw [List.foldlM_cons, bind_eq_ok]
    constructor
    · rintro ⟨specs', hc, hadded⟩
      obtain ⟨rfl, hlength', hs'⟩ := (appendSpec_eq_ok hcap hs).mp hc
      simpa using (ih hs' hlength').mp hadded
    · rintro ⟨ht, hfits, hlisteners⟩
      rw [← List.singleton_append, ← List.append_assoc] at ht hfits hlisteners
      have hs' : Listeners (specs ++ [c]) := (List.pairwise_append.mp hlisteners).1
      have hlength' : (specs ++ [c]).length ≤ capacity := by
        rw [List.length_append] at hfits
        omega
      exact ⟨_, (appendSpec_eq_ok hcap hs).mpr ⟨rfl, hlength', hs'⟩, 
        (ih hs' hlength').mpr ⟨ht, hfits, hlisteners⟩⟩

theorem appendSpecs_overflow (hcap : capacity ≤ DOCKER_OBSERVER_MAX_PORTS) {added : List PortSpec} :
    ∀ {specs : List PortSpec}, Listeners (specs ++ added) → specs.length ≤ capacity →
      capacity < (specs ++ added).length → added.foldlM (appendSpec capacity) specs = .error .overflow := by
  induction added with
  | nil =>
    intro specs _ hlength hover
    rw [List.append_nil] at hover
    omega
  | cons c added ih =>
    intro specs hlisteners hlength hover
    rw [← List.singleton_append, ← List.append_assoc] at hlisteners hover
    have hs' : Listeners (specs ++ [c]) := (List.pairwise_append.mp hlisteners).1
    have hs : Listeners specs := (List.pairwise_append.mp hs').1
    rw [List.foldlM_cons]
    by_cases hfull : specs.length = capacity
    · have hc : appendSpec capacity specs c = .error .overflow := by
        rw [appendSpec, if_pos (Or.inl hfull.ge)]
      rw [hc]
      rfl
    · have hlength' : (specs ++ [c]).length ≤ capacity := by
        rw [List.length_append, List.length_singleton]
        omega
      rw [(appendSpec_eq_ok hcap hs).mpr ⟨rfl, hlength', hs'⟩, ok_bind]
      exact ih hlisteners hlength' hover

/-! ## Inspections -/

theorem addressText_length {text : Bytes} (h : inetPton (addressText text) ≠ none) :
    ¬ HOST_IP_BYTES ≤ (addressText text).length := by
  obtain ⟨octets, hoctets⟩ := Option.ne_none_iff_exists'.mp h
  have := (inetPton_field hoctets).2
  unfold HOST_IP_BYTES
  omega

theorem foldlM_single {g : List PortSpec → PortSpec → Except SnapshotError (List PortSpec)} {c : PortSpec} :
    [c].foldlM g specs = g specs c := by
  rw [List.foldlM_cons]
  cases g specs c <;> rfl

variable {containerPort : ℕ} {protocol : PortProtocol}

theorem appendBinding_eq {binding : CJsonItem} {b : List PortSpec} (h : BindingPort containerPort protocol binding b) :
    appendBinding containerPort protocol capacity specs binding = b.foldlM (appendSpec capacity) specs := by
  cases h with
  | published ip text address number =>
    simp only [appendBinding, objectUniqueItem_eq_some.mpr ⟨_, rfl, ip⟩, objectUniqueItem_eq_some.mpr ⟨_, rfl, text⟩,
      if_neg address, if_neg (addressText_length address), number]
    exact foldlM_single.symm
  | otherFamily ip text address colon =>
    simp only [appendBinding, objectUniqueItem_eq_some.mpr ⟨_, rfl, ip⟩, objectUniqueItem_eq_some.mpr ⟨_, rfl, text⟩,
      if_pos address, if_pos colon]
    rfl

theorem appendBinding_ok {binding : CJsonItem}
    (h : appendBinding containerPort protocol capacity specs binding = .ok t) :
    ∃ b, BindingPort containerPort protocol binding b := by
  unfold appendBinding at h
  split at h
  · next hostIp hostPort hip hport =>
    obtain ⟨child, heq, ip⟩ := objectUniqueItem_eq_some.mp hip
    obtain ⟨child', heq', text⟩ := objectUniqueItem_eq_some.mp hport
    cases heq
    cases heq'
    dsimp only at h
    by_cases haddress : inetPton (addressText hostIp) = none
    · rw [if_pos haddress] at h
      split_ifs at h with hcolon
      exact ⟨_, .otherFamily ip text haddress hcolon⟩
    · rw [if_neg haddress, if_neg (addressText_length haddress)] at h
      split at h
      · cases h
      · next port hnumber => exact ⟨_, .published ip text haddress hnumber⟩
  · cases h

/-- The bindings of an entry. -/
theorem bindings_eq {bindings : List CJsonItem} {ports : List (List PortSpec)}
    (h : List.Forall₂ (BindingPort containerPort protocol) bindings ports) :
    Staging.walk (fun _ => appendBinding containerPort protocol capacity) [] specs bindings =
      ports.flatten.foldlM (appendSpec capacity) specs :=
  Staging.walk_eq (f := fun _ => appendBinding containerPort protocol capacity) (D := fun _ _ => True)
    (fun _ _ _ _ _ hb => appendBinding_eq hb) h (by simp) (List.pairwise_of_forall fun _ _ => trivial)

theorem bindings_ok {bindings : List CJsonItem}
    (h : Staging.walk (fun _ => appendBinding containerPort protocol capacity) [] specs bindings = .ok t) :
    ∃ ports, List.Forall₂ (BindingPort containerPort protocol) bindings ports :=
  (Staging.walk_ok (D := fun _ _ => True) (fun _ _ _ _ hb => ⟨fun _ _ => trivial, appendBinding_ok hb⟩) h).2.2

/-- An entry whose key is new behind the entries before. -/
theorem inspectEntry_eq {previous : List (Bytes × CJsonItem)} {entry : Bytes × CJsonItem}
    {b : List PortSpec} (hnew : ∀ q ∈ previous, q.1 ≠ entry.1) (h : InspectPort entry b) :
    inspectEntry capacity previous specs entry = b.foldlM (appendSpec capacity) specs := by
  have hfresh : previous.any (fun other => decide (other.1 = entry.1)) = false := by
    simpa using hnew
  cases h with
  | otherProtocol key =>
    simp only [inspectEntry, inspectPortKey_eq_some.mpr key]
    rw [hfresh]
    rfl
  | unpublished key =>
    simp only [inspectEntry, inspectPortKey_eq_some.mpr key]
    rw [hfresh]
    rfl
  | published key each =>
    simp only [inspectEntry, inspectPortKey_eq_some.mpr key]
    rw [hfresh]
    exact bindings_eq each

theorem inspectEntry_ok {previous : List (Bytes × CJsonItem)} {entry : Bytes × CJsonItem}
    (h : inspectEntry capacity previous specs entry = .ok t) :
    (∀ q ∈ previous, q.1 ≠ entry.1) ∧ ∃ b, InspectPort entry b := by
  obtain ⟨key, item⟩ := entry
  unfold inspectEntry at h
  dsimp only at h
  split at h
  · cases h
  · next containerPort protocol hkey =>
    have key := inspectPortKey_eq_some.mp hkey
    obtain ⟨hfresh, h⟩ := else_of_eq h (by simp)
    simp only [List.any_eq_true, decide_eq_true_eq, not_exists, not_and] at hfresh
    refine ⟨hfresh, ?_⟩
    split at h
    · exact ⟨_, .otherProtocol key⟩
    · exact ⟨_, .unpublished key⟩
    · obtain ⟨ports, each⟩ := bindings_ok h
      exact ⟨_, .published key each⟩
    · cases h

theorem entries_eq {entries : List (Bytes × CJsonItem)} {ports : List (List PortSpec)}
    (hkeys : entries.Pairwise fun a b => a.1 ≠ b.1) (h : List.Forall₂ InspectPort entries ports) :
    Staging.walk (inspectEntry capacity) [] specs entries = ports.flatten.foldlM (appendSpec capacity) specs :=
  Staging.walk_eq (f := inspectEntry capacity) (D := fun a b : Bytes × CJsonItem => a.1 ≠ b.1)
    (fun _ _ _ _ hnew hb => inspectEntry_eq hnew hb) h (by simp) hkeys

/-- What is accepted behind the specs that are there, and the ports that are added. -/
theorem parseInspect_iff {parse : Bytes → Option CJsonItem} {json : Bytes} (hspecs : Listeners specs) :
    parseInspect parse json specs capacity = .ok t ↔
      (0 < capacity ∧ capacity ≤ DOCKER_OBSERVER_MAX_PORTS ∧ specs.length ≤ capacity) ∧
        ∃ root added, parse json = some root ∧ Inspected root added ∧ t = specs ++ added ∧
          (specs ++ added).length ≤ capacity ∧ Listeners (specs ++ added) := by
  constructor
  · intro h
    unfold parseInspect at h
    obtain ⟨harguments, h⟩ := else_of_eq h (by simp)
    simp only [not_or, not_lt] at harguments
    obtain ⟨hpos, hcap, hlength⟩ := harguments
    split at h
    · cases h
    · next network hnetwork =>
      split at h
      · next entries hports =>
        obtain ⟨child, hroot, network'⟩ := objectUniqueItem_eq_some.mp hnetwork
        obtain ⟨child', heq, ports⟩ := objectUniqueItem_eq_some.mp hports
        subst heq
        obtain ⟨-, hkeys, bs, hbs⟩ := Staging.walk_ok (D := fun a b => a.1 ≠ b.1) (R := InspectPort)
          (fun _ _ _ _ hentry => inspectEntry_ok hentry) h
        rw [entries_eq hkeys hbs, appendSpecs_eq_ok hcap hspecs hlength] at h
        exact ⟨⟨Nat.pos_of_ne_zero hpos, hcap, hlength⟩, _, _, hroot,
          ⟨child, child', entries, bs, rfl, network', ports, hkeys, hbs, rfl⟩, h⟩
      · cases h
  · rintro ⟨⟨hpos, hcap, hlength⟩, root, added, hroot, hinspected, h⟩
    obtain ⟨child, network, entries, bs, rfl, hnetwork, hports, hkeys, hbs, rfl⟩ := hinspected
    unfold parseInspect
    rw [if_neg (by omega), hroot]
    simp only [objectUniqueItem_eq_some.mpr ⟨_, rfl, hnetwork⟩, objectUniqueItem_eq_some.mpr ⟨_, rfl, hports⟩]
    rw [entries_eq hkeys hbs, appendSpecs_eq_ok hcap hspecs hlength]
    exact h

/-! ## Lists of containers -/

variable {inet6 : Bytes → Bool}

theorem jsonPort_eq_some {item : Option CJsonItem} {n : ℕ} :
    jsonPort item = some n ↔ item = some (.number (some n) n) ∧ 0 < n ∧ n ≤ 65535 := by
  constructor
  · intro h
    unfold jsonPort at h
    split at h
    · next d i =>
      split_ifs at h with hbad
      simp only [not_or, not_lt, not_not] at hbad
      obtain ⟨hlow, hhigh, rfl⟩ := hbad
      cases h
      have hlow' : (1 : ℤ) ≤ i := by exact_mod_cast hlow
      have hhigh' : i ≤ (65535 : ℤ) := by exact_mod_cast hhigh
      have htoNat : ((i.toNat : ℕ) : ℤ) = i := Int.toNat_of_nonneg (by omega)
      refine ⟨?_, by omega, by omega⟩
      rw [htoNat]
      congr 3
      exact_mod_cast htoNat.symm
    · cases h
  · rintro ⟨rfl, hlow, hhigh⟩
    have hlow' : ¬ (n : ℚ) < 1 := by exact_mod_cast Nat.not_lt.mpr hlow
    have hhigh' : ¬ (65535 : ℚ) < n := by exact_mod_cast Nat.not_lt.mpr hhigh
    simp only [jsonPort]
    rw [if_neg (by simp [hlow', hhigh'])]
    simp

theorem summaryType_eq_some {type : Bytes} {protocol : Option PortProtocol} :
    summaryType type = some protocol ↔ type = typeName protocol := by
  unfold summaryType
  constructor
  · intro h
    split_ifs at h with h1 h2 h3
    · cases h
      exact h1
    · cases h
      exact h2
    · cases h
      exact h3
  · rintro rfl
    rcases protocol with _ | _ | _ <;> rfl

theorem objectItem_of_member {child : List (Bytes × CJsonItem)} {name : String} {item : CJsonItem}
    (h : Member child name (some item)) : objectItem (ascii name) child = some item := by
  induction child with
  | nil => cases h
  | cons m next ih =>
    obtain ⟨string, v⟩ := m
    unfold Member at h ih
    rw [List.filter_cons] at h
    by_cases hkey : string = ascii name
    · simp only [hkey, decide_true, if_true, List.map_cons, Option.toList_some, List.cons.injEq] at h
      rw [objectItem, if_pos hkey, h.1]
    · simp only [hkey, decide_false] at h
      rw [objectItem, if_neg hkey]
      exact ih h

theorem appendSummaryPort_eq {entry : CJsonItem} {b : List PortSpec} (h : SummaryPort inet6 entry b) :
    appendSummaryPort inet6 capacity specs entry = b.foldlM (appendSpec capacity) specs := by
  have hmember : ∀ {child : List (Bytes × CJsonItem)} {name : String} {item : Option CJsonItem},
      Member child name item → objectUniqueItem (some (.object child)) name = some item :=
    fun hm => objectUniqueItem_eq_some.mpr ⟨_, rfl, hm⟩
  cases h with
  | unpublished exposed absent =>
    obtain ⟨⟨item, hip⟩, ⟨hport, hrange⟩, htype⟩ := exposed
    simp only [appendSummaryPort, hmember hip, hmember hport, hmember htype, hmember absent,
      jsonPort_eq_some.mpr ⟨rfl, hrange⟩, summaryType_eq_some.mpr rfl]
    rfl
  | otherFamily exposed place address six =>
    obtain ⟨-, ⟨hport, hrange⟩, htype⟩ := exposed
    obtain ⟨hip, hpublic, hrange'⟩ := place
    simp only [appendSummaryPort, hmember hip, hmember hport, hmember htype, hmember hpublic,
      jsonPort_eq_some.mpr ⟨rfl, hrange⟩, jsonPort_eq_some.mpr ⟨rfl, hrange'⟩, summaryType_eq_some.mpr rfl,
      if_pos address, if_pos six]
    rfl
  | otherProtocol exposed place address =>
    obtain ⟨-, ⟨hport, hrange⟩, htype⟩ := exposed
    obtain ⟨hip, hpublic, hrange'⟩ := place
    simp only [appendSummaryPort, hmember hip, hmember hport, hmember htype, hmember hpublic,
      jsonPort_eq_some.mpr ⟨rfl, hrange⟩, jsonPort_eq_some.mpr ⟨rfl, hrange'⟩, summaryType_eq_some.mpr rfl,
      if_neg address]
    rfl
  | published exposed place address =>
    obtain ⟨-, ⟨hport, hrange⟩, htype⟩ := exposed
    obtain ⟨hip, hpublic, hrange'⟩ := place
    simp only [appendSummaryPort, hmember hip, hmember hport, hmember htype, hmember hpublic,
      jsonPort_eq_some.mpr ⟨rfl, hrange⟩, jsonPort_eq_some.mpr ⟨rfl, hrange'⟩, summaryType_eq_some.mpr rfl,
      if_neg address]
    exact foldlM_single.symm

theorem appendSummaryPort_cases {entry : CJsonItem} {r : Except SnapshotError (List PortSpec)}
    (h : appendSummaryPort inet6 capacity specs entry = r) :
    r = .error .protocol ∨ ∃ b, SummaryPort inet6 entry b := by
  unfold appendSummaryPort at h
  generalize hip : objectUniqueItem (some entry) "IP" = ip at h
  generalize hprivate : objectUniqueItem (some entry) "PrivatePort" = privatePort at h
  generalize hpublic : objectUniqueItem (some entry) "PublicPort" = publicPort at h
  generalize htype : objectUniqueItem (some entry) "Type" = type at h
  split at h
  · next ip privatePort publicPort type =>
    obtain ⟨child, heq, mip⟩ := objectUniqueItem_eq_some.mp hip
    cases heq
    obtain ⟨_, heq, mprivate⟩ := objectUniqueItem_eq_some.mp hprivate
    cases heq
    obtain ⟨_, heq, mpublic⟩ := objectUniqueItem_eq_some.mp hpublic
    cases heq
    obtain ⟨_, heq, mtype⟩ := objectUniqueItem_eq_some.mp htype
    cases heq
    split at h
    · next containerPort protocol hport hname =>
      obtain ⟨rfl, hrange⟩ := jsonPort_eq_some.mp hport
      rw [summaryType_eq_some.mp hname] at mtype
      have exposed : Exposed child containerPort protocol := ⟨⟨ip, mip⟩, ⟨mprivate, hrange⟩, mtype⟩
      split at h
      · exact Or.inr ⟨_, .unpublished exposed mpublic⟩
      · next publicPort =>
        split at h
        · next hostPort text hhost =>
          obtain ⟨heq, hrange'⟩ := jsonPort_eq_some.mp hhost
          cases heq
          have place : Address child text hostPort := ⟨mip, mpublic, hrange'⟩
          dsimp only at h
          by_cases address : inetPton (addressText text) = none
          · rw [if_pos address] at h
            by_cases six : inet6 (addressText text) = true
            · exact Or.inr ⟨_, .otherFamily exposed place address six⟩
            · rw [if_neg six] at h
              exact Or.inl h.symm
          · cases protocol with
            | none => exact Or.inr ⟨_, .otherProtocol exposed place address⟩
            | some protocol => exact Or.inr ⟨_, .published exposed place address⟩
        · exact Or.inl h.symm
    · exact Or.inl h.symm
  · exact Or.inl h.symm

theorem appendSummaryPort_ok {entry : CJsonItem} (h : appendSummaryPort inet6 capacity specs entry = .ok t) :
    ∃ b, SummaryPort inet6 entry b :=
  (appendSummaryPort_cases h).resolve_left (by simp)

theorem ports_eq {items : List CJsonItem} {ports : List (List PortSpec)}
    (h : List.Forall₂ (SummaryPort inet6) items ports) :
    Staging.walk (fun _ => appendSummaryPort inet6 capacity) [] specs items =
      ports.flatten.foldlM (appendSpec capacity) specs :=
  Staging.walk_eq (f := fun _ => appendSummaryPort inet6 capacity) (D := fun _ _ => True)
    (fun _ _ _ _ _ hb => appendSummaryPort_eq hb) h (by simp) (List.pairwise_of_forall fun _ _ => trivial)

theorem ports_ok {items : List CJsonItem}
    (h : Staging.walk (fun _ => appendSummaryPort inet6 capacity) [] specs items = .ok t) :
    ∃ ports, List.Forall₂ (SummaryPort inet6) items ports :=
  (Staging.walk_ok (D := fun _ _ => True) (fun _ _ _ _ hb => ⟨fun _ _ => trivial, appendSummaryPort_ok hb⟩) h).2.2

theorem Container.id_eq {container : CJsonItem} {id : Bytes} {b : List PortSpec} (h : Container inet6 container id b) :
    containerId container = some id := by
  cases h with
  | intro hid _ _ _ =>
    simp only [containerId, objectItem_of_member hid]

/-- A container whose identifier is new behind the containers before. -/
theorem listContainer_eq {previous : List CJsonItem} {container : CJsonItem} {b : List PortSpec}
    (hnew : ∀ q ∈ previous, containerId q ≠ containerId container) (h : ∃ id, Container inet6 container id b) :
    listContainer inet6 capacity previous specs container = b.foldlM (appendSpec capacity) specs := by
  obtain ⟨id, h⟩ := h
  have hfresh : previous.any (fun other => decide (containerId other = some id)) = false := by
    rw [h.id_eq] at hnew
    simpa using hnew
  cases h with
  | intro hid valid hitems each =>
    simp only [listContainer, objectUniqueItem_eq_some.mpr ⟨_, rfl, hid⟩, valid, if_true,
      objectUniqueItem_eq_some.mpr ⟨_, rfl, hitems⟩]
    rw [hfresh]
    exact ports_eq each

/-- A container whose head is as it should be is read to its ports. -/
theorem listContainer_cases {previous : List CJsonItem} {container : CJsonItem}
    {r : Except SnapshotError (List PortSpec)} (h : listContainer inet6 capacity previous specs container = r) :
    r = .error .protocol ∨ ∃ child id items, container = .object child ∧ Member child "Id" (some (.string id)) ∧
      containerIdValid id = true ∧ Member child "Ports" (some (.array items)) ∧ (∀ q ∈ previous, containerId q ≠ some id) ∧
        Staging.walk (fun _ => appendSummaryPort inet6 capacity) [] specs items = r := by
  unfold listContainer at h
  split at h
  · next id hid =>
    obtain ⟨child, heq, named⟩ := objectUniqueItem_eq_some.mp hid
    cases heq
    by_cases valid : containerIdValid id = true
    · rw [if_pos valid] at h
      split at h
      · next items hitems =>
        obtain ⟨_, heq, listed⟩ := objectUniqueItem_eq_some.mp hitems
        cases heq
        by_cases hfresh : previous.any (fun other => decide (containerId other = some id)) = true
        · rw [if_pos hfresh] at h
          exact Or.inl h.symm
        · rw [if_neg hfresh] at h
          simp only [List.any_eq_true, decide_eq_true_eq, not_exists, not_and] at hfresh
          exact Or.inr ⟨child, id, items, rfl, named, valid, listed, hfresh, h⟩
      · exact Or.inl h.symm
    · rw [if_neg valid] at h
      exact Or.inl h.symm
  · exact Or.inl h.symm

theorem listContainer_ok {previous : List CJsonItem} {container : CJsonItem}
    (h : listContainer inet6 capacity previous specs container = .ok t) :
    (∀ q ∈ previous, containerId q ≠ containerId container) ∧ ∃ b id, Container inet6 container id b := by
  obtain ⟨child, id, items, rfl, named, valid, listed, hfresh, hwalk⟩ :=
    (listContainer_cases h).resolve_left (by simp)
  obtain ⟨ports, each⟩ := ports_ok hwalk
  have hcontainer : Container inet6 (.object child) id ports.flatten := .intro named valid listed each
  rw [hcontainer.id_eq]
  exact ⟨hfresh, _, _, hcontainer⟩

theorem containers_eq {containers : List CJsonItem} (h : Snapshot inet6 containers t) :
    Staging.walk (listContainer inet6 capacity) [] specs containers = t.foldlM (appendSpec capacity) specs := by
  obtain ⟨hids, ports, hports, rfl⟩ := h
  exact Staging.walk_eq (f := listContainer inet6 capacity) (D := fun a b => containerId a ≠ containerId b)
    (fun _ _ _ _ hnew hb => listContainer_eq hnew hb) hports (by simp) hids

theorem containers_ok {containers : List CJsonItem}
    (h : Staging.walk (listContainer inet6 capacity) [] specs containers = .ok t) :
    ∃ added, Snapshot inet6 containers added := by
  obtain ⟨-, hids, ports, hports⟩ := Staging.walk_ok (D := fun a b => containerId a ≠ containerId b)
    (R := fun container b => ∃ id, Container inet6 container id b) (fun _ _ _ _ hb => listContainer_ok hb) h
  exact ⟨_, hids, ports, hports, rfl⟩

/-- What is accepted, and the ports of it. -/
theorem parseList_iff {parse : Bytes → Option CJsonItem} {json : Bytes} :
    parseList parse inet6 json capacity = .ok specs ↔
      (0 < capacity ∧ capacity ≤ DOCKER_OBSERVER_MAX_PORTS) ∧
        ∃ containers, parse json = some (.array containers) ∧ containers.length ≤ DOCKER_SNAPSHOT_MAX_CONTAINERS ∧
          Snapshot inet6 containers specs ∧ specs.length ≤ capacity ∧ Listeners specs := by
  have hnil : Listeners [] := List.Pairwise.nil
  constructor
  · intro h
    unfold parseList at h
    obtain ⟨harguments, h⟩ := else_of_eq h (by simp)
    simp only [not_or, not_lt] at harguments
    split at h
    · next containers hjson =>
      obtain ⟨hmany, h⟩ := else_of_eq h (by simp)
      obtain ⟨added, hsnapshot⟩ := containers_ok h
      rw [containers_eq hsnapshot, appendSpecs_eq_ok harguments.2 hnil (Nat.zero_le _)] at h
      obtain ⟨rfl, hfits, hlisteners⟩ := h
      exact ⟨⟨Nat.pos_of_ne_zero harguments.1, harguments.2⟩, containers, hjson, not_lt.mp hmany, hsnapshot, hfits,
        hlisteners⟩
    · cases h
  · rintro ⟨⟨hpos, hcap⟩, containers, hjson, hmany, hsnapshot, hfits, hlisteners⟩
    unfold parseList
    rw [if_neg (by omega), hjson]
    dsimp only
    rw [if_neg (not_lt.mpr hmany), containers_eq hsnapshot, appendSpecs_eq_ok hcap hnil (Nat.zero_le _)]
    exact ⟨rfl, hfits, hlisteners⟩

/-! ## What the ports are -/

/-- A spec that a binding or a port published. -/
theorem BindingPort.good {binding : CJsonItem} {b : List PortSpec} {n : ℕ}
    (h : BindingPort n protocol binding b) (hn : 0 < n ∧ n ≤ 65535) : ∀ spec ∈ b, GoodSpec spec := by
  cases h with
  | published ip text address number =>
    intro spec hspec
    rw [List.mem_singleton.mp hspec]
    exact ⟨Option.ne_none_iff_exists'.mp address, portNumberParse_range number, hn⟩
  | otherFamily ip text address colon => simp

theorem InspectPort.good {entry : Bytes × CJsonItem} {b : List PortSpec} (h : InspectPort entry b) :
    ∀ spec ∈ b, GoodSpec spec := by
  cases h with
  | otherProtocol key => simp
  | unpublished key => simp
  | published key each =>
    obtain ⟨⟨port, name, -, -, -, -, hport, -⟩⟩ := key
    exact Staging.forall_mem_flatten (fun _ _ hb => hb.good (portNumberParse_range hport)) each

theorem SummaryPort.good {entry : CJsonItem} {b : List PortSpec} (h : SummaryPort inet6 entry b) :
    ∀ spec ∈ b, GoodSpec spec := by
  cases h with
  | published exposed place address =>
    intro spec hspec
    rw [List.mem_singleton.mp hspec]
    exact ⟨Option.ne_none_iff_exists'.mp address, place.hostPort.2, exposed.containerPort.2⟩
  | unpublished exposed absent => simp
  | otherFamily exposed place address six => simp
  | otherProtocol exposed place address => simp

theorem Snapshot.good {containers : List CJsonItem} (h : Snapshot inet6 containers specs) :
    ∀ spec ∈ specs, GoodSpec spec := by
  obtain ⟨-, ports, hports, rfl⟩ := h
  refine Staging.forall_mem_flatten (fun container b hcontainer => ?_) hports
  obtain ⟨id, hcontainer⟩ := hcontainer
  cases hcontainer with
  | intro named valid listed each => exact Staging.forall_mem_flatten (fun _ _ hb => hb.good) each

theorem Inspected.good {root : CJsonItem} (h : Inspected root specs) : ∀ spec ∈ specs, GoodSpec spec := by
  obtain ⟨⟨child, network, entries, ports, -, -, -, -, hports, rfl⟩⟩ := h
  exact Staging.forall_mem_flatten (fun _ _ hb => hb.good) hports

theorem dockerSpecsValid_of_good (hgood : ∀ spec ∈ specs, GoodSpec spec) (hlength : specs.length ≤ MAX_FORWARD_RECORDS)
    (hlisteners : Listeners specs) : dockerSpecsValid specs = true := by
  have hlisteners' : specs.Pairwise fun a b => sameListener a b = false := hlisteners
  simp only [dockerSpecsValid, Bool.and_eq_true, decide_eq_true_eq, List.all_eq_true]
  refine ⟨⟨hlength, fun spec hspec => ?_⟩, hlisteners'⟩
  obtain ⟨⟨octets, hoctets⟩, hhost, hcontainer⟩ := hgood spec hspec
  rw [hoctets]
  exact ⟨⟨⟨⟨rfl, hhost.1⟩, hhost.2⟩, hcontainer.1⟩, hcontainer.2⟩

/-! ## Main results -/

/-- The ports of a container, where it has them. -/
def portItems : CJsonItem → List CJsonItem
  | .object child =>
    match objectItem (ascii "Ports") child with
    | some (.array items) => items
    | _ => []
  | _ => []

/-- The ports of the containers that were read, and how many of them there are. -/
theorem Snapshot.portItems {containers : List CJsonItem} (h : Snapshot inet6 containers specs) :
    ∃ ports, List.Forall₂ (SummaryPort inet6) (containers.flatMap portItems) ports ∧ specs = ports.flatten := by
  obtain ⟨-, bs, hbs, rfl⟩ := h
  induction hbs with
  | nil => exact ⟨[], .nil, rfl⟩
  | @cons container b containers bs hcontainer _ ih =>
    obtain ⟨ports, hports, hflatten⟩ := ih
    obtain ⟨id, hcontainer⟩ := hcontainer
    cases hcontainer with
    | @intro child _ items ports' named valid listed each =>
      refine ⟨ports' ++ ports, ?_, by rw [List.flatten_cons, hflatten, List.flatten_append]⟩
      rw [List.flatMap_cons, Forward.portItems, objectItem_of_member listed]
      exact List.rel_append each hports

/-- A port that was not taken for want of room was published. -/
theorem appendSummaryPort_overflow {entry : CJsonItem}
    (h : appendSummaryPort inet6 capacity specs entry = .error .overflow) (hcap : capacity ≤ DOCKER_OBSERVER_MAX_PORTS) :
    capacity ≤ specs.length ∧ ∃ c, SummaryPort inet6 entry [c] := by
  obtain ⟨b, hb⟩ := (appendSummaryPort_cases h).resolve_left (by simp)
  rw [appendSummaryPort_eq hb] at h
  have hsingle : ∃ c, b = [c] := by
    cases hb with
    | published exposed place address => exact ⟨_, rfl⟩
    | _ => cases h
  obtain ⟨c, rfl⟩ := hsingle
  rw [foldlM_single, appendSpec] at h
  refine ⟨?_, c, hb⟩
  split_ifs at h with hfull hsame
  · omega
  · cases h

/-- Too many ports are reported only where there are too many, in too many containers or as the first
`capacity + 1` that are published. -/
theorem parseList_overflow {parse : Bytes → Option CJsonItem} {json : Bytes}
    (h : parseList parse inet6 json capacity = .error .overflow) :
    ∃ containers, parse json = some (.array containers) ∧ (DOCKER_SNAPSHOT_MAX_CONTAINERS < containers.length ∨
      ∃ items ports, items <+: containers.flatMap portItems ∧ List.Forall₂ (SummaryPort inet6) items ports ∧
        capacity < ports.flatten.length) := by
  unfold parseList at h
  obtain ⟨harguments, h⟩ := else_of_eq h (by simp)
  simp only [not_or, not_lt] at harguments
  split at h
  · next containers hjson =>
    refine ⟨containers, hjson, ?_⟩
    by_cases hmany : DOCKER_SNAPSHOT_MAX_CONTAINERS < containers.length
    · exact Or.inl hmany
    · right
      rw [if_neg hmany] at h
      obtain ⟨passed, container, next, t, rfl, hpassed, hlast⟩ := Staging.walk_error h
      obtain ⟨added, hsnapshot⟩ := containers_ok hpassed
      rw [containers_eq hsnapshot, appendSpecs_eq_ok harguments.2 List.Pairwise.nil (Nat.zero_le _)] at hpassed
      obtain ⟨rfl, hfits, hlisteners⟩ := hpassed
      rw [List.nil_append] at hfits hlisteners
      obtain ⟨child, id, items, rfl, -, -, listed, -, hwalk⟩ := (listContainer_cases hlast).resolve_left (by simp)
      obtain ⟨before, item, behind, t', rfl, hbefore, hitem⟩ := Staging.walk_error hwalk
      obtain ⟨ports', each⟩ := ports_ok hbefore
      rw [ports_eq each, appendSpecs_eq_ok harguments.2 hlisteners hfits] at hbefore
      obtain ⟨rfl, -, -⟩ := hbefore
      obtain ⟨hfull, c, hc⟩ := appendSummaryPort_overflow hitem harguments.2
      obtain ⟨ports, hports, hadded⟩ := hsnapshot.portItems
      refine ⟨passed.flatMap portItems ++ (before ++ [item]), ports ++ (ports' ++ [[c]]), ?_,
        List.rel_append hports (List.rel_append each (.cons hc .nil)), ?_⟩
      · refine ⟨behind ++ next.flatMap portItems, ?_⟩
        have hcontainer : portItems (.object child) = before ++ item :: behind := by
          simp only [portItems, objectItem_of_member listed]
        simp [hcontainer]
      · rw [hadded] at hfull
        simp only [List.flatten_append, List.flatten_cons, List.flatten_nil, List.append_nil,
          List.length_append, List.length_singleton] at hfull ⊢
        omega
  · cases h

/-- A list of containers with too many ports is told from one that cannot be read. -/
theorem parseList_tooMany {parse : Bytes → Option CJsonItem} {json : Bytes} {containers : List CJsonItem}
    (hcap : 0 < capacity ∧ capacity ≤ DOCKER_OBSERVER_MAX_PORTS) (hjson : parse json = some (.array containers))
    (h : Snapshot inet6 containers specs) (hlisteners : Listeners specs) (hmany : capacity < specs.length) :
    parseList parse inet6 json capacity = .error .overflow := by
  unfold parseList
  rw [if_neg (by omega), hjson]
  dsimp only
  by_cases hcontainers : DOCKER_SNAPSHOT_MAX_CONTAINERS < containers.length
  · rw [if_pos hcontainers]
  · rw [if_neg hcontainers, containers_eq h]
    exact appendSpecs_overflow hcap.2 hlisteners (Nat.zero_le _) hmany

/-- The list of containers: its ports come out exactly where all of it is as it should be, they are what the
synchronization accepts, and too many of them have their own error. -/
theorem list_published (parse : Bytes → Option CJsonItem) (inet6 : Bytes → Bool) (json : Bytes) (capacity : ℕ) :
    (∀ specs, parseList parse inet6 json capacity = .ok specs ↔
      (0 < capacity ∧ capacity ≤ DOCKER_OBSERVER_MAX_PORTS) ∧
        ∃ containers, parse json = some (.array containers) ∧ containers.length ≤ DOCKER_SNAPSHOT_MAX_CONTAINERS ∧
          Snapshot inet6 containers specs ∧ specs.length ≤ capacity ∧ Listeners specs) ∧
    (∀ specs, parseList parse inet6 json capacity = .ok specs → dockerSpecsValid specs = true) ∧
    (parseList parse inet6 json capacity = .error .overflow →
      ∃ containers, parse json = some (.array containers) ∧ (DOCKER_SNAPSHOT_MAX_CONTAINERS < containers.length ∨
        ∃ items ports, items <+: containers.flatMap portItems ∧ List.Forall₂ (SummaryPort inet6) items ports ∧
          capacity < ports.flatten.length)) ∧
    (∀ containers specs, 0 < capacity ∧ capacity ≤ DOCKER_OBSERVER_MAX_PORTS → parse json = some (.array containers) →
      Snapshot inet6 containers specs → Listeners specs → capacity < specs.length →
        parseList parse inet6 json capacity = .error .overflow) := by
  refine ⟨fun specs => parseList_iff, fun specs h => ?_, parseList_overflow,
    fun containers specs hcap hjson h hlisteners hmany => parseList_tooMany hcap hjson h hlisteners hmany⟩
  obtain ⟨⟨-, hcap⟩, containers, -, -, hsnapshot, hfits, hlisteners⟩ := parseList_iff.mp h
  exact dockerSpecsValid_of_good hsnapshot.good (hfits.trans hcap) hlisteners

/-- The inspection of a container: its ports are added exactly where all of it is as it should be, and what comes out is
what the synchronization accepts. -/
theorem inspect_published (parse : Bytes → Option CJsonItem) (json : Bytes) (specs : List PortSpec) (capacity : ℕ)
    (hspecs : Listeners specs) :
    (∀ t, parseInspect parse json specs capacity = .ok t ↔
      (0 < capacity ∧ capacity ≤ DOCKER_OBSERVER_MAX_PORTS ∧ specs.length ≤ capacity) ∧
        ∃ root added, parse json = some root ∧ Inspected root added ∧ t = specs ++ added ∧
          (specs ++ added).length ≤ capacity ∧ Listeners (specs ++ added)) ∧
    (∀ t, parseInspect parse json specs capacity = .ok t → (∀ spec ∈ specs, GoodSpec spec) →
      dockerSpecsValid t = true) := by
  refine ⟨fun t => parseInspect_iff hspecs, fun t h hgood => ?_⟩
  obtain ⟨⟨-, hcap, -⟩, root, added, -, hinspected, rfl, hfits, hlisteners⟩ := (parseInspect_iff hspecs).mp h
  refine dockerSpecsValid_of_good (fun spec hspec => ?_) (hfits.trans hcap) hlisteners
  rcases List.mem_append.mp hspec with hspec | hspec
  · exact hgood spec hspec
  · exact hinspected.good spec hspec

/-- The inspection of a container with a TCP port, a UDP port and one of another protocol. -/
def sampleInspection : CJsonItem :=
  .object [(ascii "NetworkSettings", .object [(ascii "Ports", .object [
    (ascii "80/tcp", .array [.object [(ascii "HostIp", .string (ascii "127.0.0.1")),
      (ascii "HostPort", .string (ascii "48240"))]]),
    (ascii "53/udp", .array [.object [(ascii "HostIp", .string []), (ascii "HostPort", .string (ascii "48241"))]]),
    (ascii "443/sctp", .null)])])]

theorem inspect_published_sample :
    parseInspect (fun _ => some sampleInspection) [] [] 128 =
      .ok [⟨ascii "127.0.0.1", 48240, 80, .tcp⟩, ⟨ascii "0.0.0.0", 48241, 53, .udp⟩] ∧
    dockerSpecsValid [⟨ascii "127.0.0.1", 48240, 80, .tcp⟩, ⟨ascii "0.0.0.0", 48241, 53, .udp⟩] = true :=
  ⟨by decide, (inspect_published (fun _ => some sampleInspection) [] [] 128 List.Pairwise.nil).2 _
    (by decide) (by simp)⟩

end Hamn.Forward
