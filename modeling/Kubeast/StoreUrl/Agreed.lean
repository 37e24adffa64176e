import Kubeast.StoreUrl.Refused

/-! When the check of a URL and the check of a dialled address keep the rule, and when they agree. -/
namespace Kubeast.StoreUrl
open Text

section Rule
variable (tables : CharTables) (reader : Reader)

/-- A URL whose host is written as an address, and that address dialled. -/
structure Request where
  raw : String
  host : String
  addr : Addr
  dialled : String
  port : ℕ
  written : hostOf tables reader raw = .ok host
  parsed : reader.parseAddr host = some addr
  dials : reader.parseAddrPort dialled = .ok (addr, port)

variable {tables reader} (req : Request tables reader) (allowed : List String)

/-- The networks that are closed unless a host is listed. -/
def closedNetworks : List (List Prefix) := [ownHostNetworks, noAnswerNetworks]

/-- What the rule asks of the two checks. -/
structure Meets : Prop where
  metadata : Within Carries metadataNetworks req.addr →
    checkURL tables reader allowed req.raw ≠ none ∧ ∀ hostListed, checkDialled reader req.dialled hostListed ≠ none
  closed : ∀ networks ∈ closedNetworks, Within Carries networks req.addr → listed req.host allowed = false →
    checkURL tables reader allowed req.raw ≠ none ∧ checkDialled reader req.dialled false ≠ none
  agree : checkURL tables reader allowed req.raw = none ↔
    checkDialled reader req.dialled (listed req.host allowed) = none ∧
      (allowed ≠ [] → listed req.host allowed = true)

/-- The address is in one of the networks by what its forms show. -/
def Closed (addr : Addr) : Prop := ∃ networks ∈ metadataNetworks :: closedNetworks, Within Shows networks addr

/-- No network is hidden behind a prefix, and no zone makes a name of the address. -/
structure Open : Prop where
  metadata : Hidden metadataNetworks req.addr → Within Shows metadataNetworks req.addr
  closed : ∀ networks ∈ closedNetworks, Hidden networks req.addr → listed req.host allowed = false →
    Closed req.addr
  name : allowed = [] → localName req.host = true → Closed req.addr

theorem closed_iff (addr : Addr) : Closed addr ↔
    isIn addr metadataNetworks = true ∨ isIn addr ownHostNetworks = true ∨
      isIn addr noAnswerNetworks = true := by
  rw [isIn_iff apart_metadata, isIn_iff apart_ownHost, isIn_iff apart_noAnswer]
  simp [Closed, closedNetworks]

theorem dialled_eq_none (hostListed : Bool) : checkDialled reader req.dialled hostListed = none ↔
    ¬Within Shows metadataNetworks req.addr ∧ (hostListed = true ∨ ¬Closed req.addr) := by
  rw [← isIn_iff apart_metadata, closed_iff, checkDialled, req.dials]
  dsimp only
  split_ifs <;> simp_all

/-- A name with metadata is no address. -/
def NamesUnread (reader : Reader) : Prop := ∀ host ∈ metadataHosts, reader.parseAddr host = none

theorem url_eq_none (hnames : NamesUnread reader) : checkURL tables reader allowed req.raw = none ↔
    ¬Within Shows metadataNetworks req.addr ∧
      (listed req.host allowed = true ∨ allowed = [] ∧ localName req.host = false ∧ ¬Closed req.addr) := by
  have hname : metadataHosts.contains req.host = false := by
    rw [List.contains_eq_any_beq, List.any_eq_false]
    intro name hname heq
    have hnone := hnames name hname
    rw [← beq_iff_eq.mp heq, req.parsed] at hnone
    cases hnone
  rw [← isIn_iff apart_metadata, closed_iff, checkURL, req.written]
  simp only [hname, req.parsed, addrIn, Option.any_some, Bool.false_or]
  split_ifs with _ _ hsome hown <;> simp_all
  · exact fun hnil => absurd hnil (List.ne_nil_of_length_pos hsome)
  · intro hlocal hnot
    simp [hlocal, hnot] at hown

theorem meets_iff (hnames : NamesUnread reader) : Meets req allowed ↔ Open req allowed := by
  have hclosed : ∀ networks ∈ closedNetworks, Within Shows networks req.addr → Closed req.addr :=
    fun networks h hin => ⟨networks, List.mem_cons_of_mem _ h, hin⟩
  have hmetadata : Within Shows metadataNetworks req.addr → Closed req.addr :=
    fun h => ⟨_, List.mem_cons_self, h⟩
  have hurl := url_eq_none req allowed hnames
  have hdial := dialled_eq_none req
  constructor
  · rintro ⟨hm, hc, hagree⟩
    refine ⟨fun h => ?_, fun networks hn h hl => ?_, fun hnil hlocal => ?_⟩
    · have hrefused := (hm ((within_carries _).mpr (.inr h))).2 true
      rw [ne_eq, hdial] at hrefused
      simpa using hrefused
    · have hrefused := (hc networks hn ((within_carries _).mpr (.inr h)) hl).2
      rw [ne_eq, hdial] at hrefused
      by_contra hopen
      exact hrefused ⟨fun h => hopen (hmetadata h), .inr hopen⟩
    · by_contra hopen
      have hl : listed req.host allowed = false := by rw [hnil]; rfl
      rw [hurl, hdial, hl] at hagree
      have h := hagree.mpr ⟨⟨fun h => hopen (hmetadata h), .inr hopen⟩, fun hne => absurd hnil hne⟩
      simp [hlocal] at h
  · rintro ⟨hm, hc, hname⟩
    refine ⟨fun h => ?_, fun networks hn h hl => ?_, ?_⟩
    · have hshown : Within Shows metadataNetworks req.addr := ((within_carries _).mp h).elim id hm
      exact ⟨fun hnone => (hurl.mp hnone).1 hshown, fun l hnone => ((hdial l).mp hnone).1 hshown⟩
    · have hshown : Closed req.addr := ((within_carries _).mp h).elim (hclosed networks hn) (hc networks hn · hl)
      constructor
      · intro hnone
        have h := (hurl.mp hnone).2
        simp [hl, hshown] at h
      · intro hnone
        have h := ((hdial false).mp hnone).2
        simp [hshown] at h
    · rw [hurl, hdial]
      cases hl : listed req.host allowed
      · by_cases hnil : allowed = []
        · cases hlocal : localName req.host
          · simp [hnil]
          · have hshown := hname hnil hlocal
            simp [hshown]
        · simp [hnil]
      · simp

/-- What the library reads of one URL. -/
def readerOf (raw host dialled : String) (addr : Addr) : Reader where
  hostname r := if r = raw then .ok host else .error ("parse " ++ quote .ascii r ++ ": invalid URL")
  parseAddr h := if h = host then some addr else none
  parseAddrPort d := if d = dialled then .ok (addr, 443) else .error "invalid ip:port"

def plainRequest : Request .ascii (readerOf "https://10.0.0.5/" "10.0.0.5" "10.0.0.5:443" (.v4 0x0a000005)) where
  raw := "https://10.0.0.5/"
  host := "10.0.0.5"
  addr := .v4 0x0a000005
  dialled := "10.0.0.5:443"
  port := 443
  written := by decide
  parsed := rfl
  dials := rfl

theorem meets_plain : Meets plainRequest [".corp"] := by
  refine (meets_iff plainRequest [".corp"] (by unfold NamesUnread; decide)).mpr ⟨fun h => h.elim, ?_, ?_⟩
  · exact fun _ _ h => h.elim
  · exact fun hnil => absurd hnil (List.cons_ne_nil _ _)

end Rule

section Requests

def hiddenRaw : String := "https://[2002:808:808:0:0:5efe:a9fe:a9fe]/"

def hiddenHost : String := "2002:808:808:0:0:5efe:a9fe:a9fe"

def hiddenDialled : String := "[2002:808:808::5efe:a9fe:a9fe]:443"

/-- 6to4 of 8.8.8.8, with an ISATAP interface part that carries 169.254.169.254. -/
def hiddenAddr : Addr := .v6 0x200208080808000000005efea9fea9fe ""

def hiddenReader : Reader := readerOf hiddenRaw hiddenHost hiddenDialled hiddenAddr

theorem hidden_allowed : Within Carries metadataNetworks hiddenAddr ∧
    checkURL .ascii hiddenReader [] hiddenRaw = none ∧ checkDialled hiddenReader hiddenDialled false = none := by
  refine ⟨.inr ⟨0xa9fea9fe, ⟨.isatap, ⟨0, by decide, by decide⟩, by decide⟩, by decide⟩, ?_, ?_⟩
  · decide
  · decide

end Requests
end Kubeast.StoreUrl
