import Kubeast.Permissions.Ceiling
import Kubeast.Foundation.Utf8

/-! The permission keys a role may carry (`allPermissions` in
`auth-service-go/internal/handler/role.go`). -/
namespace Kubeast.Permissions
open Text Wildcard

/-- The published keys by category. -/
def allPermissions : List (String × List String) :=
  [ ("All", ["*"]),
    ("Menu", ["menu.*", "menu.dashboard", "menu.workloads", "menu.network", "menu.storage",
      "menu.security", "menu.cluster", "menu.gateway", "menu.gpu", "menu.helm",
      "menu.configuration", "menu.admin"]),
    ("Resources", ["resource.*.*", "resource.*.read", "resource.*.create", "resource.*.edit",
      "resource.*.delete"]),
    ("Node", ["resource.node.cordon", "resource.node.drain", "resource.node.shell"]),
    ("Cluster", ["resource.hygiene.scan"]),
    ("Pod", ["resource.pod.exec", "resource.pod.logfile"]),
    ("Workload", ["resource.workload.restart", "resource.workload.rollback",
      "resource.cronjob.suspend", "resource.cronjob.trigger"]),
    ("Secret", ["resource.secret.reveal"]),
    ("Alerts", ["resource.alert.silence", "resource.alert.investigate"]),
    ("Network", ["resource.networkflow.read"]),
    ("Helm", ["resource.helm.*", "resource.helm.read", "resource.helm.rollback",
      "resource.helm.upgrade", "resource.helm.uninstall", "resource.helm.test"]),
    ("AI tools", ["ai.tool.*", "ai.tool.get_cluster_overview", "ai.tool.get_pod_metrics",
      "ai.tool.get_node_metrics", "ai.tool.k8s_get_resources", "ai.tool.k8s_get_resource_yaml",
      "ai.tool.k8s_describe_resource", "ai.tool.k8s_get_pod_logs", "ai.tool.k8s_get_events",
      "ai.tool.k8s_get_available_api_resources", "ai.tool.k8s_get_cluster_configuration",
      "ai.tool.k8s_check_service_connectivity", "ai.tool.k8s_find_resource",
      "ai.tool.k8s_explain", "ai.tool.issues", "ai.tool.prometheus_query",
      "ai.tool.prometheus_metrics", "ai.tool.prometheus_labels", "ai.tool.prometheus_rules",
      "ai.tool.prometheus_targets", "ai.tool.logsearch", "ai.tool.loki_query",
      "ai.tool.loki_labels", "ai.tool.loki_patterns", "ai.tool.traces_search",
      "ai.tool.traces_get", "ai.tool.traces_tags", "ai.tool.traces_metrics",
      "ai.tool.traces_compare", "ai.tool.alerts_list", "ai.tool.policy_reports",
      "ai.tool.helm_read", "ai.tool.cost", "ai.tool.optimization", "ai.tool.can_i",
      "ai.tool.network_policy_check", "ai.tool.network_flows", "ai.tool.network_drops",
      "ai.tool.network_top_flows", "ai.tool.resource_graph", "ai.tool.timeline", "ai.tool.gpu",
      "ai.tool.hygiene", "ai.tool.k8s_jq_query", "ai.tool.k8s_tabular_query",
      "ai.tool.k8s_count", "ai.tool.k8s_diff", "ai.tool.gitops_status", "ai.tool.clusters_list",
      "ai.tool.pod_rbac", "ai.tool.logfiles", "ai.tool.storage_summary",
      "ai.tool.network_policy_effective", "ai.tool.limit_range_violations",
      "ai.tool.alerts_inbox", "ai.tool.alert_investigate", "ai.tool.audit_search",
      "ai.tool.nodes_stats_summary", "ai.tool.nodes_log", "ai.tool.access_review",
      "ai.tool.ai_usage", "ai.tool.access_requests", "ai.tool.audit_integrity",
      "ai.tool.hygiene_history", "ai.tool.investigations", "ai.tool.ai_models",
      "ai.tool.session_recordings", "ai.tool.k8s_execute_command", "ai.mcp.use"]),
    ("Admin", ["admin.*", "admin.users.*", "admin.users.create", "admin.users.read",
      "admin.users.update", "admin.users.delete", "admin.clusters.*", "admin.clusters.list",
      "admin.clusters.create", "admin.clusters.update", "admin.clusters.delete", "admin.roles.*",
      "admin.roles.create", "admin.roles.update", "admin.roles.delete", "admin.organizations.*",
      "admin.organizations.create", "admin.organizations.delete", "admin.ai_models.*",
      "admin.audit.read", "admin.audit.export", "admin.sessions.read", "admin.review.read",
      "admin.review.export", "admin.review.signoff", "admin.hygiene.read",
      "admin.hygiene.export", "admin.hygiene.signoff", "admin.investigations.read",
      "admin.nodes.read"]) ]

def catalog : List String := allPermissions.flatMap Prod.snd

/-- Keys that were in the catalog once: a stored role may still send them back. -/
def retiredPermissions : List String := ["ai.tool.helm_execute"]

def unknownPermissions (perms : List String) : List String :=
  sortStrings (perms.filter fun p => !catalog.contains p && !retiredPermissions.contains p)

theorem unknownPermissions_eq_nil {perms : List String} :
    unknownPermissions perms = [] ↔ ∀ p ∈ perms, p ∈ catalog ∨ p ∈ retiredPermissions := by
  simp only [unknownPermissions, sortStrings_eq_nil, List.filter_eq_nil_iff, Bool.and_eq_true,
    Bool.not_eq_true', List.contains_iff_mem, Bool.eq_false_iff, ne_eq]
  exact forall₂_congr fun p _ => by tauto

theorem join_split (s : String) : ['.'].intercalate (split s) = s.toList :=
  List.intercalate_splitOn '.'

theorem bytes_of_head_star {p : String} (h : (split p).head? = some star) : (Utf8.bytes p).head? = some 42 := by
  obtain ⟨a, rest, hs⟩ := List.exists_cons_of_ne_nil (split_ne_nil p)
  have ha : a = star := by simpa [hs] using h
  have hp : p.toList = '*' :: (['.'].intercalate (split p)).tail := by
    conv_lhs => rw [← join_split p]
    rw [hs, ha]
    cases rest <;> rfl
  rw [Utf8.bytes_eq, hp]
  rfl

-- the first byte stands for the segment: the kernel reads a literal's bytes at once, its characters slowly
/-- A known key other than `"*"` starts with a plain segment. -/
theorem known_head (p : String) (hp : p ∈ catalog ++ retiredPermissions) :
    p = "*" ∨ (split p).head? ≠ some star := by
  have hbytes : ∀ p ∈ catalog ++ retiredPermissions, p = "*" ∨ (Utf8.bytes p).head? ≠ some 42 := by
    decide +kernel
  exact (hbytes p hp).imp_right fun h hs => h (bytes_of_head_star hs)

private theorem admin_dot : "admin.".toList = "admin".toList ++ ['.'] := rfl

/-- A key under `admin.` is the segment `admin` followed by others. -/
theorem hasPrefix_admin_iff {p : String} :
    hasPrefix p "admin." = true ↔ ∃ rest, rest ≠ [] ∧ split p = "admin".toList :: rest := by
  rw [hasPrefix_iff, admin_dot]
  constructor
  · rintro ⟨t, ht⟩
    refine ⟨t.splitOn '.', List.splitOn_ne_nil _ _, ?_⟩
    rw [split, ht, List.append_assoc, List.singleton_append]
    exact List.splitOn_append_cons_self_of_not_mem (show '.' ∉ "admin".toList by decide) t
  · rintro ⟨rest, hne, hsplit⟩
    refine ⟨['.'].intercalate rest, ?_⟩
    rw [← join_split p, hsplit, List.intercalate_cons_of_ne_nil hne]

theorem split_star : split "*" = [star] := rfl

/-- Among known keys only global ones match a global key. -/
theorem isGlobalPermission_of_matches {p q : String}
    (hp : p ∈ catalog ∨ p ∈ retiredPermissions) (hq : isGlobalPermission q = true)
    (h : permMatches p q = true) : isGlobalPermission p = true := by
  simp only [isGlobalPermission, Bool.or_eq_true, beq_iff_eq] at hq ⊢
  rcases known_head p (List.mem_append.mpr hp) with hstar | hhead
  · exact Or.inl hstar
  obtain ⟨a, tail, hs⟩ := List.exists_cons_of_ne_nil (split_ne_nil p)
  rw [hs] at hhead
  have ha : a ≠ star := fun e => hhead (by rw [e]; rfl)
  rw [permMatches_iff, hs] at h
  rcases hq with rfl | hq
  · rw [split_star, covers_cons (Or.inl ha)] at h
    rcases h.1 with he | he <;> exact absurd he ha
  · obtain ⟨rest, hne, hsplit⟩ := hasPrefix_admin_iff.mp hq
    rw [hsplit, covers_cons (Or.inl ha)] at h
    rcases h.1 with he | he
    · exact absurd he ha
    · refine Or.inr (hasPrefix_admin_iff.mpr ⟨tail, ?_, by rw [hs, he]⟩)
      rintro rfl
      exact hne (covers_nil_left.mp h.2)

end Kubeast.Permissions
