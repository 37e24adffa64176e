import Kubeast.SignIn.Groups
import Kubeast.SignIn.Provision
import Mathlib.Data.List.Perm.Basic

/-! A sync of cluster grants after one with the same groups, whatever their order. -/
namespace Kubeast
open Transition

section Views
variable {db db' : Database} {now : ℤ} {userID c : String} {g : UserClusterGrant}

theorem clusterId_of_viewGrant {row : ClusterGrant} (h : db.viewGrant row = some g) :
    g.clusterId = row.clusterId := by
  obtain ⟨ro, -, rfl⟩ := Option.map_eq_some_iff.mp h
  rfl

theorem mem_views : g ∈ (db.activeGrantsOf now userID).filterMap db.viewGrant ↔
    db.getUserClusterGrant now userID g.clusterId = some g := by
  rw [List.mem_filterMap, Database.getUserClusterGrant, Option.bind_eq_some_iff]
  constructor
  · rintro ⟨row, hrow, hview⟩
    refine ⟨row, ?_, hview⟩
    rw [clusterId_of_viewGrant hview, get_of_mem_activeGrantsOf hrow]
    exact Option.filter_some_pos (Database.mem_activeGrantsOf.mp hrow).2.2
  · rintro ⟨row, hrow, hview⟩
    obtain ⟨hget, hactive⟩ := Option.filter_eq_some_iff.mp hrow
    exact ⟨row, (mem_activeGrantsOf_of_get hget hactive).1, hview⟩

theorem clusterId_of_view (h : db.getUserClusterGrant now userID c = some g) : g.clusterId = c := by
  obtain ⟨row, hrow, hview⟩ := Option.bind_eq_some_iff.mp h
  obtain ⟨hget, hactive⟩ := Option.filter_eq_some_iff.mp hrow
  exact (clusterId_of_viewGrant hview).trans (mem_activeGrantsOf_of_get hget hactive).2

theorem nodup_views :
    (((db.activeGrantsOf now userID).filterMap db.viewGrant).map UserClusterGrant.clusterId).Nodup := by
  rw [List.Nodup, List.pairwise_map, List.pairwise_filterMap]
  have hrows : ((db.activeGrantsOf now userID).map ClusterGrant.clusterId).Nodup :=
    nodup_clusterId_activeGrantsOf
  rw [List.Nodup, List.pairwise_map] at hrows
  apply hrows.imp
  intro row row' hne g hg g' hg'
  rwa [clusterId_of_viewGrant hg, clusterId_of_viewGrant hg']

/-- The names that a sync reads. -/
theorem get_names_isSome : ((db.listUserClusterRoleNames now userID).get c).isSome =
    (db.getUserClusterGrant now userID c).isSome := by
  rw [Bool.eq_iff_iff, Database.listUserClusterRoleNames, Dict.get_foldl_set_isSome]
  constructor
  · rintro (hempty | ⟨g, hg, rfl⟩)
    · cases hempty
    · rw [mem_views.mp hg]
      rfl
  · intro h
    obtain ⟨g, hg⟩ := Option.isSome_iff_exists.mp h
    have hc := clusterId_of_view hg
    exact Or.inr ⟨g, mem_views.mpr (hc ▸ hg), hc⟩

theorem index_names : (db.listUserClusterRoleNames now userID).index c =
    ((db.getUserClusterGrant now userID c).map UserClusterGrant.role).getD "" := by
  cases hview : db.getUserClusterGrant now userID c with
  | none =>
    rw [Database.listUserClusterRoleNames, Dict.index_foldl_set_of_notMem]
    · rfl
    · rintro g hg rfl
      rw [mem_views.mp hg] at hview
      cases hview
  | some g =>
    have hc := clusterId_of_view hview
    subst hc
    exact Dict.index_foldl_set_of_mem nodup_views (mem_views.mpr hview)

/-- The clusters of the temporary grants that a sync reads. -/
theorem mem_temporaries : c ∈ ((db.listUserClusterGrants now userID).filter fun g =>
      g.expiresAt.isSome).map UserClusterGrant.clusterId ↔
    ∃ g, db.getUserClusterGrant now userID c = some g ∧ g.expiresAt.isSome = true := by
  rw [List.mem_map]
  constructor
  · rintro ⟨g, hg, rfl⟩
    obtain ⟨hg, htemporary⟩ := List.mem_filter.mp hg
    exact ⟨g, mem_views.mp ((List.mem_insertionSort _).mp hg), htemporary⟩
  · rintro ⟨g, hg, htemporary⟩
    have hc := clusterId_of_view hg
    refine ⟨g, List.mem_filter.mpr ⟨(List.mem_insertionSort _).mpr (mem_views.mpr ?_), htemporary⟩, hc⟩
    rwa [hc]

theorem getUserClusterGrant_congr (hget : db'.grants.get (userID, c) = db.grants.get (userID, c))
    (hroles : db'.roles = db.roles) :
    db'.getUserClusterGrant now userID c = db.getUserClusterGrant now userID c := by
  rw [Database.getUserClusterGrant, Database.getUserClusterGrant, hget]
  unfold Database.viewGrant
  rw [hroles]

end Views

namespace SignIn

/-- The claims of a sign-in with these groups. -/
def GroupConfig.claims (cfg : GroupConfig) (email newId : String) (groups : List String) : Claims where
  email := email
  mapped :=
    if mapRole groups cfg.roleMapping = "" then cfg.defaultRole else mapRole groups cfg.roleMapping
  hasGroups := true
  want := (clusterGrantsOf cfg groups).rows
  newId := newId

/-- A statement of a sign-in that no other write comes between. -/
def alone (cfg : OIDCConfig) (claims : Claims) (now : ℤ) (s : Database × List String × Phase) (k : ℕ) :
    Database × List String × Phase :=
  s.2.2.advance cfg claims s.1 now s.2.1 k

/-- A grant that a sync leaves as it is: on a cluster with a temporary grant, the one there is, one
of a role that does not exist, or one that the store refuses. -/
def Idle (db : Database) (now : ℤ) (userID : String) (x : String × String) : Prop :=
  (∃ g, db.getUserClusterGrant now userID x.1 = some g ∧ g.expiresAt.isSome = true) ∨
    ((db.getUserClusterGrant now userID x.1).map UserClusterGrant.role).getD "" = x.2 ∨
    ∀ role, (db.roles.rows.find? fun r => r.name == x.2) = some role → ¬ db.Refers userID x.1 role.id

/-- A sync for these grants has nothing to do. -/
structure Synced (db : Database) (now : ℤ) (userID : String) (want : List (String × String)) : Prop where
  wanted : ∀ x ∈ want, Idle db now userID x
  others : ∀ c g, db.getUserClusterGrant now userID c = some g → g.expiresAt = none →
    c ∈ want.map Prod.fst

/-- The locals of a sync that agree with the database. -/
structure Reads (db : Database) (now : ℤ) (userID : String) (sync : Sync) : Prop where
  user : sync.user.id = userID
  temporary : ∀ c, sync.temporary.contains c = true ↔
    ∃ g, db.getUserClusterGrant now userID c = some g ∧ g.expiresAt.isSome = true

section Second
variable {cfg : OIDCConfig} {claims : Claims} {db : Database} {now : ℤ} {passwords : List String} {k : ℕ}
  {userID : String} {p : Phase}

/-- Where the sync of a user with nothing to do stands. -/
def Still (db : Database) (now : ℤ) (userID : String) (want : List (String × String)) : Phase → Prop
  | .names user => user.id = userID
  | .temporaries user held => user.id = userID ∧ held = db.listUserClusterRoleNames now userID
  | .want sync rest => Reads db now userID sync ∧
      sync.held = db.listUserClusterRoleNames now userID ∧ sync.lost = false ∧ rest ⊆ want
  | .set sync rest clusterID role => Reads db now userID sync ∧
      sync.held = db.listUserClusterRoleNames now userID ∧ sync.lost = false ∧ rest ⊆ want ∧
      ¬ db.Refers userID clusterID role.id
  | .issuing _ => True
  | _ => False

theorem getRoleByName_eq_some {name : String} {role : RoleWithPermissions}
    (h : db.getRoleByName name = some role) :
    (db.roles.rows.find? fun r => r.name == name) = some role.toRole := by
  obtain ⟨ro, hfind, rfl⟩ := Option.map_eq_some_iff.mp h
  exact hfind

theorem setUserClusterRole_error {clusterID : String} {roleID : ℕ} {namespaces : List String}
    (h : ¬ db.Refers userID clusterID roleID) :
    db.setUserClusterRole userID clusterID roleID namespaces = .error .foreignKeyViolation := by
  have hrefers : ¬ db.RefersGrant (permanentGrant userID clusterID roleID namespaces) := fun hg => h hg.1
  rw [Database.setUserClusterRole, Database.upsertGrant, dif_neg hrefers]

/-- The loop over the wanted grants ends: nothing is unwanted, so the token follows. -/
theorem still_want {sync : Sync} {rest : List (String × String)} (h : Synced db now userID claims.want)
    (hreads : Reads db now userID sync) (hheld : sync.held = db.listUserClusterRoleNames now userID)
    (hlost : sync.lost = false) (hrest : rest ⊆ claims.want) :
    Still db now userID claims.want (sync.want claims rest) := by
  rw [Sync.want]
  split
  · have hunwanted : sync.unwanted claims = [] := by
      rw [Sync.unwanted, List.filter_eq_nil_iff]
      intro c hc hkeep
      rw [Bool.and_eq_true, Bool.not_eq_true', Bool.not_eq_true'] at hkeep
      obtain ⟨htemporary, hwant⟩ := hkeep
      obtain ⟨x, hx, rfl⟩ := List.mem_map.mp hc
      rw [hheld] at hx
      have hsome : ((db.listUserClusterRoleNames now userID).get x.1).isSome = true := by
        rw [Table.get_of_mem hx]
        rfl
      rw [get_names_isSome] at hsome
      obtain ⟨g, hg⟩ := Option.isSome_iff_exists.mp hsome
      cases hexpires : g.expiresAt with
      | some t =>
        have hmem := (hreads.temporary x.1).mpr ⟨g, hg, by rw [hexpires]; rfl⟩
        rw [htemporary] at hmem
        cases hmem
      | none =>
        have hmem := List.contains_iff_mem.mpr (h.others x.1 g hg hexpires)
        rw [hwant] at hmem
        cases hmem
    rw [hunwanted, Sync.unwant, if_pos rfl]
    unfold Sync.leave
    rw [hlost]
    trivial
  · exact ⟨hreads, hheld, hlost, hrest⟩

/-- A statement of a sync that has nothing to do. -/
theorem still_advance (h : Synced db now userID claims.want) (hp : Still db now userID claims.want p) :
    (p.advance cfg claims db now passwords k).1 = db ∧
      Still db now userID claims.want (p.advance cfg claims db now passwords k).2.2 := by
  cases p with
  | names user =>
    obtain rfl : user.id = userID := hp
    exact ⟨rfl, rfl, rfl⟩
  | temporaries user held =>
    obtain ⟨rfl, hheld⟩ := hp
    refine ⟨rfl, still_want h ⟨rfl, fun c => ?_⟩ hheld rfl (List.Subset.refl _)⟩
    rw [List.contains_iff_mem]
    exact mem_temporaries
  | want sync rest =>
    obtain ⟨hreads, hheld, hlost, hrest⟩ := hp
    refine ⟨rfl, ?_⟩
    unfold Phase.advance
    dsimp only
    cases hx : rest[k]? with
    | none => exact ⟨hreads, hheld, hlost, hrest⟩
    | some x =>
      have herase : rest.eraseIdx k ⊆ claims.want := fun y hy => hrest (List.mem_of_mem_eraseIdx hy)
      dsimp only
      split
      · exact still_want h hreads hheld hlost herase
      · next hskip =>
        rw [Bool.not_eq_true, Bool.or_eq_false_iff, decide_eq_false_iff_not] at hskip
        cases hrole : db.getRoleByName x.2 with
        | none => exact still_want h hreads hheld hlost herase
        | some role =>
          refine ⟨hreads, hheld, hlost, herase, ?_⟩
          rcases h.wanted x (hrest (List.mem_of_getElem? hx)) with htemporary | hsame | hrefused
          · have hmem := (hreads.temporary x.1).mpr htemporary
            rw [hskip.1] at hmem
            cases hmem
          · rw [← index_names, ← hheld] at hsame
            exact absurd hsame hskip.2
          · exact hrefused _ (getRoleByName_eq_some hrole)
  | set sync rest clusterID role =>
    obtain ⟨hreads, hheld, hlost, hrest, hrefused⟩ := hp
    have hset : db.setUserClusterRole sync.user.id clusterID role.id [] = .error .foreignKeyViolation := by
      rw [hreads.user]
      exact setUserClusterRole_error hrefused
    unfold Phase.advance
    dsimp only
    rw [hset]
    exact ⟨rfl, still_want h hreads hheld hlost hrest⟩
  | issuing i => exact ⟨rfl, trivial⟩
  | _ => exact hp.elim

/-- A sync that has nothing to do changes no grant and ends no token. -/
theorem still_exec (h : Synced db now userID claims.want) (hp : Still db now userID claims.want p)
    (ks : List ℕ) : (exec (alone cfg claims now) (db, passwords, p) ks).1 = db := by
  induction ks generalizing passwords p with
  | nil => rfl
  | cons k ks ih =>
    obtain ⟨hdb, hstill⟩ : (p.advance cfg claims db now passwords k).1 = db ∧
        Still db now userID claims.want (p.advance cfg claims db now passwords k).2.2 := still_advance h hp
    rw [exec_cons]
    have hstep : alone cfg claims now (db, passwords, p) k =
        (db, (p.advance cfg claims db now passwords k).2) := Prod.ext hdb rfl
    rw [hstep]
    exact ih hstill

end Second

section First
variable {cfg : OIDCConfig} {claims : Claims} {db db' : Database} {now : ℤ} {passwords : List String}
  {k : ℕ} {userID c : String} {p : Phase} {sync : Sync} {rest : List (String × String)}
  {x y : String × String}

/-- What a statement of a sync leaves as it was: what grants refer to. -/
structure SameDirectory (db db' : Database) : Prop where
  roles : db'.roles = db.roles
  refers : ∀ u c r, db'.Refers u c r ↔ db.Refers u c r

theorem SameDirectory.of_eq (h : db'.toDirectory = db.toDirectory) : SameDirectory db db' :=
  ⟨congrArg Directory.roles h, fun u c r => by rw [h]⟩

theorem sameDirectory_endTokens (db : Database) (userID : String) : SameDirectory db (db.endTokens userID) := by
  refine ⟨rfl, fun u c r => ?_⟩
  simp [Database.endTokens, Database.bumpTokenVersion, Directory.Refers]

theorem Idle.congr (h : Idle db now userID x) (hsame : SameDirectory db db')
    (hget : db'.grants.get (userID, x.1) = db.grants.get (userID, x.1)) : Idle db' now userID x := by
  rw [Idle, getUserClusterGrant_congr hget hsame.roles, hsame.roles]
  refine h.imp_right (Or.imp_right fun hrefused role hrole => ?_)
  rw [hsame.refers]
  exact hrefused role hrole

/-- The loop over the wanted grants: what is left to do, and what the sync has read of it. -/
structure Todo (db : Database) (now : ℤ) (userID : String) (want : List (String × String)) (sync : Sync)
    (rest : List (String × String)) : Prop where
  wanted : ∀ x ∈ want, x ∈ rest ∨ Idle db now userID x
  subset : rest ⊆ want
  nodup : (rest.map Prod.fst).Nodup
  fresh : ∀ x ∈ rest, sync.held.index x.1 =
    ((db.getUserClusterGrant now userID x.1).map UserClusterGrant.role).getD ""
  others : ∀ c ∉ want.map Prod.fst, (sync.held.get c).isSome = (db.getUserClusterGrant now userID c).isSome

/-- The loop over the grants that are not wanted. -/
structure Drop (db : Database) (now : ℤ) (userID : String) (want : List (String × String))
    (rest : List String) : Prop where
  wanted : ∀ x ∈ want, Idle db now userID x
  others : ∀ c g, db.getUserClusterGrant now userID c = some g → g.expiresAt = none →
    c ∈ want.map Prod.fst ∨ c ∈ rest
  unwanted : ∀ c ∈ rest, c ∉ want.map Prod.fst

/-- Where a sync stands that is on its way to leave nothing to do. -/
def Towards (db : Database) (now : ℤ) (userID : String) (want : List (String × String)) : Phase → Prop
  | .names user => user.id = userID
  | .temporaries user held => user.id = userID ∧ held = db.listUserClusterRoleNames now userID
  | .want sync rest => Reads db now userID sync ∧ Todo db now userID want sync rest
  | .set sync rest clusterID role => Reads db now userID sync ∧
      sync.temporary.contains clusterID = false ∧
      (db.roles.rows.find? fun r => r.name == role.name) = some role ∧
      Todo db now userID want sync ((clusterID, role.name) :: rest)
  | .unwant sync rest => sync.user.id = userID ∧ Drop db now userID want rest
  | .bump user .issue | .version user .issue => user.id = userID ∧ Synced db now userID want
  | .issuing _ => Synced db now userID want
  | .failed => True
  | _ => False

theorem Todo.perm {rest' : List (String × String)} (h : Todo db now userID claims.want sync rest)
    (hperm : rest.Perm rest') : Todo db now userID claims.want sync rest' where
  wanted _ hx := (h.wanted _ hx).imp_left hperm.mem_iff.mp
  subset _ hx := h.subset (hperm.mem_iff.mpr hx)
  nodup := (hperm.map _).nodup_iff.mp h.nodup
  fresh x hx := h.fresh x (hperm.mem_iff.mpr hx)
  others := h.others

/-- A wanted grant that needs nothing. -/
theorem Todo.tail (h : Todo db now userID claims.want sync (x :: rest)) (hidle : Idle db now userID x) :
    Todo db now userID claims.want sync rest where
  wanted y hy := by
    rcases h.wanted y hy with hmem | hmem
    · rcases List.mem_cons.mp hmem with rfl | hmem
      · exact Or.inr hidle
      · exact Or.inl hmem
    · exact Or.inr hmem
  subset y hy := h.subset (List.mem_cons_of_mem x hy)
  nodup := (List.nodup_cons.mp h.nodup).2
  fresh y hy := h.fresh y (List.mem_cons_of_mem x hy)
  others := h.others

/-- A wanted grant that is written. -/
theorem Todo.write {lost : Bool} (hkeys : (claims.want.map Prod.fst).Nodup)
    (h : Todo db now userID claims.want sync (x :: rest))
    (hsame : SameDirectory db db') (hidle : Idle db' now userID x)
    (hget : ∀ c ≠ x.1, db'.grants.get (userID, c) = db.grants.get (userID, c)) :
    Todo db' now userID claims.want { sync with lost := lost } rest := by
  have hx : x ∈ claims.want := h.subset List.mem_cons_self
  obtain ⟨hnew, hnodup⟩ := List.nodup_cons.mp h.nodup
  refine ⟨?_, fun y hy => h.subset (List.mem_cons_of_mem x hy), hnodup, ?_, ?_⟩
  · intro y hy
    rcases h.wanted y hy with hmem | hmem
    · rcases List.mem_cons.mp hmem with rfl | hmem
      · exact Or.inr hidle
      · exact Or.inl hmem
    · by_cases hyx : y.1 = x.1
      · obtain rfl := List.inj_on_of_nodup_map hkeys hy hx hyx
        exact Or.inr hidle
      · exact Or.inr (hmem.congr hsame (hget y.1 hyx))
  · intro y hy
    have hyx : y.1 ≠ x.1 := fun he => hnew (he ▸ List.mem_map_of_mem hy)
    rw [getUserClusterGrant_congr (hget y.1 hyx) hsame.roles]
    exact h.fresh y (List.mem_cons_of_mem x hy)
  · intro c hc
    have hcx : c ≠ x.1 := fun he => hc (he ▸ List.mem_map_of_mem hx)
    rw [getUserClusterGrant_congr (hget c hcx) hsame.roles]
    exact h.others c hc

theorem Drop.synced (h : Drop db now userID claims.want []) : Synced db now userID claims.want :=
  ⟨h.wanted, fun c g hg hexpires => (h.others c g hg hexpires).resolve_right List.not_mem_nil⟩

theorem towards_unwant {rest : List String} (huser : sync.user.id = userID)
    (h : Drop db now userID claims.want rest) : Towards db now userID claims.want (sync.unwant rest) := by
  rw [Sync.unwant]
  split
  · next hnil =>
    subst hnil
    unfold Sync.leave
    split
    · exact ⟨huser, h.synced⟩
    · exact h.synced
  · exact ⟨huser, h⟩

theorem towards_want (hreads : Reads db now userID sync) (h : Todo db now userID claims.want sync rest) :
    Towards db now userID claims.want (sync.want claims rest) := by
  rw [Sync.want]
  split
  · next hnil =>
    subst hnil
    refine towards_unwant hreads.user ⟨fun x hx => (h.wanted x hx).resolve_left List.not_mem_nil, ?_, ?_⟩
    · intro c g hg hexpires
      by_cases hc : c ∈ claims.want.map Prod.fst
      · exact Or.inl hc
      · refine Or.inr (List.mem_filter.mpr ⟨?_, ?_⟩)
        · have hsome := h.others c hc
          rw [hg] at hsome
          obtain ⟨row, hrow⟩ := Option.isSome_iff_exists.mp hsome
          exact List.mem_map.mpr ⟨row, Table.mem_of_get hrow, Table.key_of_get hrow⟩
        · have htemporary : sync.temporary.contains c = false := by
            rw [← Bool.not_eq_true, hreads.temporary]
            rintro ⟨g', hg', hexpires'⟩
            rw [hg] at hg'
            obtain rfl := Option.some.inj hg'
            rw [hexpires] at hexpires'
            cases hexpires'
          have hwant : (claims.want.map Prod.fst).contains c = false := by
            rw [← Bool.not_eq_true, List.contains_iff_mem]
            exact hc
          rw [htemporary, hwant]
          rfl
    · intro c hc hmem
      obtain ⟨-, hkeep⟩ := List.mem_filter.mp hc
      rw [Bool.and_eq_true, Bool.not_eq_true', Bool.not_eq_true', ← Bool.not_eq_true,
        ← Bool.not_eq_true, List.contains_iff_mem, List.contains_iff_mem] at hkeep
      exact hkeep.2 hmem
  · exact ⟨hreads, h⟩

theorem view_of_set {roleID : ℕ} (hdb : db.setUserClusterRole userID c roleID [] = .ok db') :
    db'.getUserClusterGrant now userID c =
      (db.roles.get roleID).map fun ro => ⟨c, roleID, ro.name, none, []⟩ := by
  obtain ⟨hget, -, hdirectory⟩ := Database.setUserClusterRole_ok hdb
  have hroles : db'.roles = db.roles := congrArg Directory.roles hdirectory
  rw [Database.getUserClusterGrant, hget, if_pos rfl, ← hroles]
  rfl

/-- A written grant is the one there is. -/
theorem idle_of_set {roleID : ℕ} {role : Role} (hdb : db.setUserClusterRole userID c roleID [] = .ok db')
    (hrole : db.roles.get roleID = some role) : Idle db' now userID (c, role.name) := by
  refine Or.inr (Or.inl ?_)
  rw [view_of_set hdb, hrole]
  rfl

theorem get_of_find_name {role : Role} {name : String}
    (h : (db.roles.rows.find? fun r => r.name == name) = some role) : db.roles.get role.id = some role :=
  Table.get_of_mem (List.mem_of_find?_eq_some h)

/-- The temporary grants stay while others are written. -/
theorem Reads.congr (hreads : Reads db now userID sync)
    (h : ∀ c, (∃ g, db'.getUserClusterGrant now userID c = some g ∧ g.expiresAt.isSome = true) ↔
      ∃ g, db.getUserClusterGrant now userID c = some g ∧ g.expiresAt.isSome = true) (lost : Bool) :
    Reads db' now userID { sync with lost := lost } :=
  ⟨hreads.user, fun c => (hreads.temporary c).trans (h c).symm⟩

theorem towards_advance (hkeys : (claims.want.map Prod.fst).Nodup)
    (hp : Towards db now userID claims.want p) :
    Towards (p.advance cfg claims db now passwords k).1 now userID claims.want
      (p.advance cfg claims db now passwords k).2.2 := by
  cases p with
  | names user =>
    obtain rfl : user.id = userID := hp
    exact ⟨rfl, rfl⟩
  | temporaries user held =>
    obtain ⟨rfl, rfl⟩ := hp
    refine towards_want ⟨rfl, fun c => ?_⟩ ⟨fun x hx => Or.inl hx, List.Subset.refl _, hkeys, ?_, ?_⟩
    · rw [List.contains_iff_mem]
      exact mem_temporaries
    · exact fun x _ => index_names
    · exact fun c _ => get_names_isSome
  | want sync rest =>
    obtain ⟨hreads, htodo⟩ := hp
    unfold Phase.advance
    dsimp only
    cases hx : rest[k]? with
    | none => exact ⟨hreads, htodo⟩
    | some x =>
      obtain ⟨hk, rfl⟩ := List.getElem?_eq_some_iff.mp hx
      have hnext := htodo.perm (List.getElem_cons_eraseIdx_perm hk).symm
      dsimp only
      split
      · next hskip =>
        refine towards_want hreads (hnext.tail ?_)
        rw [Bool.or_eq_true, decide_eq_true_eq] at hskip
        rcases hskip with htemporary | hsame
        · exact Or.inl ((hreads.temporary _).mp htemporary)
        · rw [hnext.fresh _ List.mem_cons_self] at hsame
          exact Or.inr (Or.inl hsame)
      · next hskip =>
        rw [Bool.not_eq_true, Bool.or_eq_false_iff, decide_eq_false_iff_not] at hskip
        cases hrole : db.getRoleByName rest[k].2 with
        | none =>
          refine towards_want hreads (hnext.tail (Or.inr (Or.inr ?_)))
          intro role hfind
          rw [Database.getRoleByName, hfind] at hrole
          cases hrole
        | some role =>
          have hfind := getRoleByName_eq_some hrole
          have hname : role.name = rest[k].2 := by simpa using List.find?_some hfind
          refine ⟨hreads, hskip.1, ?_, ?_⟩
          · rw [← hfind, ← hname]
          · rw [show role.toRole.name = rest[k].2 from hname]
            exact hnext
  | set sync rest clusterID role =>
    obtain ⟨hreads, hpermanent, hfind, htodo⟩ := hp
    have hrole := get_of_find_name hfind
    unfold Phase.advance
    dsimp only
    rw [hreads.user]
    cases hset : db.setUserClusterRole userID clusterID role.id [] with
    | error e =>
      refine towards_want hreads (htodo.tail (Or.inr (Or.inr ?_)))
      intro role' hfind' hrefers
      rw [hfind] at hfind'
      obtain rfl := Option.some.inj hfind'
      have hgrant : db.RefersGrant (permanentGrant userID clusterID role.id []) :=
        ⟨hrefers, fun r hr => by cases hr⟩
      rw [Database.setUserClusterRole, Database.upsertGrant, dif_pos hgrant] at hset
      cases hset
    | ok db' =>
      obtain ⟨hget, -, hdirectory⟩ := Database.setUserClusterRole_ok hset
      have hsame := SameDirectory.of_eq hdirectory
      have hother : ∀ c ≠ clusterID, db'.grants.get (userID, c) = db.grants.get (userID, c) := by
        intro c hc
        rw [hget, if_neg fun he => hc (Prod.mk.inj he).2.symm]
      refine towards_want (hreads.congr (fun c => ?_) _)
        (htodo.write hkeys hsame (idle_of_set hset hrole) hother)
      by_cases hc : c = clusterID
      · subst hc
        have hbefore : ¬ ∃ g, db.getUserClusterGrant now userID c = some g ∧ g.expiresAt.isSome = true := by
          rw [← hreads.temporary c, hpermanent]
          decide
        refine iff_of_false ?_ hbefore
        rintro ⟨g, hg, hexpires⟩
        rw [view_of_set hset, hrole] at hg
        obtain rfl := Option.some.inj hg
        cases hexpires
      · rw [getUserClusterGrant_congr (hother c hc) hsame.roles]
  | unwant sync rest =>
    obtain ⟨huser, hdrop⟩ := hp
    unfold Phase.advance
    dsimp only
    cases hx : rest[k]? with
    | none => exact ⟨huser, hdrop⟩
    | some clusterID =>
      obtain ⟨hk, rfl⟩ := List.getElem?_eq_some_iff.mp hx
      have hunwanted := hdrop.unwanted rest[k] (List.getElem_mem hk)
      have hget := Database.get_deleteUserClusterRole db sync.user.id rest[k]
      have hother : ∀ c ≠ rest[k], (db.deleteUserClusterRole sync.user.id rest[k]).1.grants.get (userID, c) =
          db.grants.get (userID, c) := by
        intro c hc
        rw [hget, if_neg fun he => hc (Prod.mk.inj he).2.symm]
      have hsame : SameDirectory db (db.deleteUserClusterRole sync.user.id rest[k]).1 := .of_eq rfl
      refine towards_unwant huser ⟨?_, ?_, ?_⟩
      · intro x hx
        have hne : x.1 ≠ rest[k] := fun he => hunwanted (he ▸ List.mem_map_of_mem hx)
        exact (hdrop.wanted x hx).congr hsame (hother x.1 hne)
      · intro c g hg hexpires
        by_cases hc : c = rest[k]
        · rw [Database.getUserClusterGrant, hget, huser, hc, if_pos rfl] at hg
          cases hg
        · rw [getUserClusterGrant_congr (hother c hc) hsame.roles] at hg
          refine (hdrop.others c g hg hexpires).imp_right fun hmem => ?_
          have hperm := List.getElem_cons_eraseIdx_perm hk
          exact (List.mem_cons.mp (hperm.mem_iff.mpr hmem)).resolve_left hc
      · exact fun c hc => hdrop.unwanted c (List.mem_of_mem_eraseIdx hc)
  | bump user after =>
    cases after with
    | issue =>
      obtain ⟨huser, hsynced⟩ := hp
      refine ⟨huser, ?_, ?_⟩
      · exact fun x hx => (hsynced.wanted x hx).congr (sameDirectory_endTokens db user.id) rfl
      · exact hsynced.others
    | _ => exact hp.elim
  | version user after =>
    cases after with
    | issue =>
      obtain ⟨huser, hsynced⟩ := hp
      unfold Phase.advance
      dsimp only
      cases db.getTokenVersion user.id with
      | none => trivial
      | some v => exact hsynced
    | _ => exact hp.elim
  | issuing i => exact hp
  | failed => trivial
  | _ => exact hp.elim

theorem towards_exec (hkeys : (claims.want.map Prod.fst).Nodup) (hp : Towards db now userID claims.want p)
    (ks : List ℕ) : Towards (exec (alone cfg claims now) (db, passwords, p) ks).1 now userID claims.want
      (exec (alone cfg claims now) (db, passwords, p) ks).2.2 := by
  induction ks generalizing db passwords p with
  | nil => exact hp
  | cons k ks ih =>
    rw [exec_cons]
    exact ih (towards_advance hkeys hp)

/-- A sync that reaches the token leaves nothing to do. -/
theorem synced_of_exec {user : User} {ks : List ℕ} {passwords' : List String} {i : Issuing}
    (hkeys : (claims.want.map Prod.fst).Nodup)
    (h : exec (alone cfg claims now) (db, passwords, .names user) ks = (db', passwords', .issuing i)) :
    Synced db' now user.id claims.want := by
  have hstart : Towards db now user.id claims.want (.names user) := rfl
  have hend : Towards (exec (alone cfg claims now) (db, passwords, .names user) ks).1 now user.id claims.want
      (exec (alone cfg claims now) (db, passwords, .names user) ks).2.2 := towards_exec hkeys hstart ks
  rw [h] at hend
  exact hend

end First

section Order
variable {db : Database} {now now' : ℤ} {userID : String} {want want' : List (String × String)}

/-- The same grants are wanted, and none of the user has run out since. -/
theorem Synced.congr (h : Synced db now userID want) (hwant : ∀ x, x ∈ want' ↔ x ∈ want)
    (hactive : ∀ g ∈ db.grants.rows, g.userId = userID → activeGrant now' g = activeGrant now g) :
    Synced db now' userID want' := by
  have hview : ∀ c, db.getUserClusterGrant now' userID c = db.getUserClusterGrant now userID c := by
    intro c
    rw [Database.getUserClusterGrant, Database.getUserClusterGrant]
    cases hget : db.grants.get (userID, c) with
    | none => rfl
    | some g =>
      obtain ⟨hmem, hpair⟩ := Table.get_eq_some.mp hget
      rw [Option.filter_some, Option.filter_some, hactive g hmem (Prod.mk.inj hpair).1]
  refine ⟨fun x hx => ?_, fun c g hg hexpires => ?_⟩
  · rw [Idle, hview]
    exact h.wanted x ((hwant x).mp hx)
  · rw [hview] at hg
    obtain ⟨x, hx, rfl⟩ := List.mem_map.mp (h.others c g hg hexpires)
    exact List.mem_map_of_mem ((hwant x).mpr hx)

end Order

/-- What groups give, whatever order the provider lists them in: the role of the account, the role
on each cluster, and a sync that does nothing after one in another order. -/
structure OrderFree (oidc : OIDCConfig) (cfg : GroupConfig) (groups : List String) : Prop where
  role : ∀ groups', groups.Perm groups' → mapRole groups' cfg.roleMapping =
    (highest (mappedRoles groups cfg.roleMapping)).getD ""
  grants : ∀ groups', groups.Perm groups' → ∀ c,
    ((clusterGrantsOf cfg groups').get c).map Prod.snd = highest (named cfg groups c)
  synced : ∀ groups', groups.Perm groups' → ∀ (email email' newId newId' : String) (db db' : Database)
    (now now' : ℤ) (passwords passwords' later : List String) (user user' : User) (ks ks' : List ℕ)
    (i : Issuing), exec (alone oidc (cfg.claims email newId groups) now) (db, passwords, .names user) ks =
      (db', passwords', .issuing i) → user'.id = user.id →
    (∀ g ∈ db'.grants.rows, g.userId = user.id → activeGrant now' g = activeGrant now g) →
    (exec (alone oidc (cfg.claims email' newId' groups') now') (db', later, .names user') ks').1 = db'

/-- The order of the groups does not matter exactly when no cluster has two contenders, and the one
that it has is the first by name of the highest roles. -/
theorem orderFree_iff (oidc : OIDCConfig) (cfg : GroupConfig) (groups : List String) :
    OrderFree oidc cfg groups ↔ Decided cfg groups := by
  rw [← grants_perm_iff]
  constructor
  · exact OrderFree.grants
  · intro hgrants
    refine ⟨fun groups' hperm => ?_, hgrants, ?_⟩
    · rw [← mapRole_perm hperm, mapRole_eq]
    · intro groups' hperm email email' newId newId' db db' now now' passwords passwords' later user user' ks
        ks' i hrun hid hactive
      have hmap : ∀ c, ((clusterGrantsOf cfg groups').get c).map Prod.snd =
          ((clusterGrantsOf cfg groups).get c).map Prod.snd := fun c =>
        (hgrants groups' hperm c).trans (hgrants groups (List.Perm.refl _) c).symm
      have hwant : ∀ x, x ∈ (clusterGrantsOf cfg groups').rows ↔ x ∈ (clusterGrantsOf cfg groups).rows := by
        intro x
        rw [Dict.mem_rows, Dict.mem_rows, hmap]
      have hsynced := synced_of_exec (clusterGrantsOf cfg groups).nodup hrun
      have hsynced' := hsynced.congr hwant hactive
      have hstart : Still db' now' user.id (clusterGrantsOf cfg groups').rows (.names user') := hid
      exact still_exec hsynced' hstart ks'

/-- Two groups give two custom roles on one cluster. -/
def twoTeams : GroupConfig := ⟨Table.empty, "Pending", "kubeast:cluster:", Table.empty⟩

theorem twoTeams_swapped :
    ((clusterGrantsOf twoTeams ["kubeast:cluster:prod:Dba", "kubeast:cluster:prod:Ops"]).get "prod",
      (clusterGrantsOf twoTeams ["kubeast:cluster:prod:Ops", "kubeast:cluster:prod:Dba"]).get "prod") =
      (some ("prod", "Dba"), some ("prod", "Ops")) := by
  decide
end SignIn
end Kubeast
