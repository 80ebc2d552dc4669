import Mathlib.Data.Set.List
import Sop2.Lab05.Provinces.Forwarding
import Sop2.Support.Decimal

/-!
# Lab05 — Provinces — the configuration

`load_config` of `lab05/generated_harder`, which reads the number of the provinces and the routes
from a file.  It checks neither, where `load_graph` of `lab05/generated` checks the number.

* `loadConfig`: a store outside `path[]`, `routes[]` or `matrix[][]` has no defined effect (`Stop`).
* `loadConfig_ok`, `loadConfig_total`: what is returned, and for which files.
* `loadConfig_written`: the routes that were written are read back.
* `loadConfig_law`: the files for which everything fits, so that every packet is forwarded to a pipe
  that `main` has created.
-/

namespace Sop2.Provinces
open Support Support.Piped

/-- `MAX_N`. -/
def maxN : Int := 10

/-- `MAX_PATH`. -/
def maxPath : Nat := 15

/-- `MAX_MSG`. -/
def maxMsg : Nat := 64

/-- The size of `routes`. -/
def maxRoutes : Nat := 20

/-- The size of `line`. -/
def lineSize : Nat := 256

/-- `packet_t`, with the first `path_len` elements of `path`.  The message stays as it was when
there is none behind the colon. -/
structure PacketT where
  path : List Int
  currentStep : Nat
  message : Option (List UInt8)

/-- `config_t`, with the first `n_routes` elements of `routes`. -/
structure Config where
  nProvinces : Int
  routes : List PacketT
  matrix : Int → Int → Int

/-- How `load_config` ends when it does not return. -/
inductive Stop where
  /-- `ERR`. -/
  | err
  /-- A store outside an array. -/
  | outside

/-- `matrix[prev_node][node] = 1`. -/
def mark (prevNode node : Int) (matrix : Int → Int → Int) : Except Stop (Int → Int → Int) :=
  if (0 ≤ prevNode ∧ prevNode < maxN) ∧ 0 ≤ node ∧ node < maxN then
    .ok fun i j => if i = prevNode ∧ j = node then 1 else matrix i j
  else .error .outside

/-- A turn of the loop over the numbers of a line, with `path` and `matrix`. -/
def addNode (x : List Int × (Int → Int → Int)) (node : Int) :
    Except Stop (List Int × (Int → Int → Int)) :=
  if x.1.length < maxPath then
    match x.1.getLast? with
    -- `path_len > 1` fails
    | none => .ok ([node], x.2)
    | some prevNode => (mark prevNode node x.2).map fun matrix => (x.1 ++ [node], matrix)
  else .error .outside

/-- A turn of the loop over the lines; 58 is `':'`. -/
def addLine (cfg : Config) (line : List UInt8) : Except Stop Config :=
  match strchr 58 (cString line) with
  -- `continue`
  | none => .ok cfg
  | some (before, colon) =>
      if cfg.routes.length < maxRoutes then
        ((numbers before).foldlM addNode ([], cfg.matrix)).map fun (path, matrix) =>
          { cfg with
            routes := cfg.routes ++ [⟨path, 0, scanWord (maxMsg - 1) colon.tail⟩]
            matrix := matrix }
      else .error .outside

/-- The number in the first line, and the other lines. -/
def header (file : List UInt8) : Option (Int × List UInt8) :=
  (fgets lineSize file).bind fun (line, rest) =>
    (scanInt (cString line)).map fun (n, _) => (n, rest)

/-- `load_config`, of the bytes of a file. -/
def loadConfig (file : List UInt8) : Except Stop Config :=
  match header file with
  | none => .error .err
  | some (n, rest) => (lines lineSize rest).foldlM addLine ⟨n, [], fun _ _ => 0⟩

/-! ### What is returned -/

/-- The steps of a path. -/
def steps (path : List Int) : List (Int × Int) := path.zip path.tail

/-- The numbers before the colon of a line that has one. -/
def nodes? (line : List UInt8) : Option (List Int) :=
  (strchr 58 (cString line)).map fun x => numbers x.1

/-- The numbers of all lines with a colon. -/
def paths (rest : List UInt8) : List (List Int) := (lines lineSize rest).filterMap nodes?

theorem steps_snoc (path : List Int) (prevNode node : Int) :
    steps (path ++ [prevNode] ++ [node]) = steps (path ++ [prevNode]) ++ [(prevNode, node)] := by
  induction path with
  | nil => rfl
  | cons a path ih =>
      cases path with
      | nil => rfl
      | cons b path => exact congrArg ((a, b) :: ·) ih

/-- The numbers of a line are in `path`, and its steps in `matrix`. -/
structure Nodes (matrix : Int → Int → Int) (nodes : List Int)
    (x : List Int × (Int → Int → Int)) : Prop where
  path : x.1 = nodes
  matrix : ∀ i j, x.2 i j = 1 ↔ matrix i j = 1 ∨ (i, j) ∈ steps nodes

variable {matrix : Int → Int → Int} {path before : List Int} {x x' : List Int × (Int → Int → Int)}
  {node n : Int} {cfg cfg' : Config} {line file rest : List UInt8} {before' : List (List UInt8)}

theorem mark_ok {prevNode : Int} {matrix' : Int → Int → Int}
    (h : mark prevNode node matrix = .ok matrix') :
    ∀ i j, matrix' i j = 1 ↔ matrix i j = 1 ∨ (i, j) = (prevNode, node) := by
  intro i j
  rw [Prod.mk.injEq]
  unfold mark at h
  split at h
  · cases h
    by_cases hij : i = prevNode ∧ j = node <;> simp [hij]
  · cases h

theorem Nodes.step (h : Nodes matrix before x) (hturn : addNode x node = .ok x') :
    Nodes matrix (before ++ [node]) x' := by
  obtain ⟨path, m⟩ := x
  obtain rfl : path = before := h.path
  unfold addNode at hturn
  split at hturn
  · split at hturn
    next hlast =>
      -- the first number makes no step
      obtain rfl := List.getLast?_eq_none_iff.mp hlast
      cases hturn
      exact ⟨rfl, h.matrix⟩
    next prevNode hlast =>
      obtain ⟨path, rfl⟩ := List.getLast?_eq_some_iff.mp hlast
      cases hmark : mark prevNode node m with
      | error e => rw [hmark] at hturn; cases hturn
      | ok m' =>
          rw [hmark] at hturn
          cases hturn
          refine ⟨rfl, fun i j => ?_⟩
          rw [mark_ok hmark, h.matrix, steps_snoc, List.mem_append, List.mem_singleton, or_assoc]
  · cases hturn

/-- The next number fits. -/
theorem Nodes.turn (h : Nodes matrix before x) (hlength : before.length < maxPath)
    (hbefore : ∀ a ∈ before, 0 ≤ a ∧ a < maxN) (hnode : 0 ≤ node ∧ node < maxN) :
    ∃ x', addNode x node = .ok x' := by
  obtain ⟨path, m⟩ := x
  obtain rfl : path = before := h.path
  unfold addNode
  rw [if_pos hlength]
  split
  · exact ⟨_, rfl⟩
  next prevNode hlast =>
    have hprev := hbefore prevNode (List.mem_of_getLast? hlast)
    rw [mark, if_pos ⟨hprev, hnode⟩]
    exact ⟨_, rfl⟩

/-- **The numbers of a line** that `addNode` accepts. -/
theorem nodes_ok (h : path.foldlM addNode ([], matrix) = .ok x) : Nodes matrix path x :=
  foldlM_keeps Nodes.step ⟨rfl, by simp [steps]⟩ h

theorem nodes_total (matrix : Int → Int → Int) (hlength : path.length ≤ maxPath)
    (hnodes : ∀ a ∈ path, 0 ≤ a ∧ a < maxN) :
    ∃ x, path.foldlM addNode ([], matrix) = .ok x := by
  refine foldlM_total (I := Nodes matrix) (fun {before a after x} heq h => ?_) Nodes.step
    ⟨rfl, by simp [steps]⟩
  subst heq
  refine h.turn ?_ (fun b hb => hnodes b (List.mem_append_left _ hb)) (hnodes a (by simp))
  rw [List.length_append, List.length_cons] at hlength
  omega

/-- The lines that were read are in the configuration. -/
structure Lines (n : Int) (before : List (List UInt8)) (cfg : Config) : Prop where
  nProvinces : cfg.nProvinces = n
  routes : cfg.routes.map PacketT.path = before.filterMap nodes?
  matrix : ∀ i j, cfg.matrix i j = 1 ↔ ∃ path ∈ before.filterMap nodes?, (i, j) ∈ steps path
  message : ∀ pkt ∈ cfg.routes, ∀ word ∈ pkt.message, word.length < maxMsg

theorem nodes?_eq (line : List UInt8) :
    nodes? line = (strchr 58 (cString line)).map fun x => numbers x.1 := rfl

theorem Lines.step (h : Lines n before' cfg) (hturn : addLine cfg line = .ok cfg') :
    Lines n (before' ++ [line]) cfg' := by
  have hfilter : (before' ++ [line]).filterMap nodes? =
      before'.filterMap nodes? ++ (nodes? line).toList := filterMap_snoc ..
  unfold addLine at hturn
  split at hturn
  next hcolon =>
    -- a line without a colon has no numbers
    cases hturn
    have hnone : nodes? line = none := by rw [nodes?_eq, hcolon]; rfl
    rw [hnone, Option.toList_none, List.append_nil] at hfilter
    exact ⟨h.nProvinces, hfilter ▸ h.routes, hfilter ▸ h.matrix, h.message⟩
  next before colon hcolon =>
    have hsome : nodes? line = some (numbers before) := by rw [nodes?_eq, hcolon]; rfl
    rw [hsome, Option.toList_some] at hfilter
    split at hturn
    · cases hrun : (numbers before).foldlM addNode ([], cfg.matrix) with
      | error e => rw [hrun] at hturn; cases hturn
      | ok x =>
          rw [hrun] at hturn
          cases hturn
          have hx := nodes_ok hrun
          refine ⟨h.nProvinces, ?_, fun i j => ?_, fun pkt hpkt word hword => ?_⟩
          · rw [hfilter, List.map_append, h.routes]
            exact congrArg (_ ++ [·]) hx.path
          · rw [hfilter]
            refine (hx.matrix i j).trans ?_
            rw [h.matrix]
            simp [or_and_right, exists_or]
          · rcases List.mem_append.mp hpkt with hpkt | hpkt
            · exact h.message pkt hpkt word hword
            · obtain rfl := List.mem_singleton.mp hpkt
              exact Nat.lt_succ_of_le (length_scanWord hword)
    · cases hturn

/-- The next line fits. -/
theorem Lines.turn (h : Lines n before' cfg)
    (hroutes : ((before' ++ [line]).filterMap nodes?).length ≤ maxRoutes)
    (hline : ∀ path ∈ nodes? line, path.length ≤ maxPath ∧ ∀ a ∈ path, 0 ≤ a ∧ a < maxN) :
    ∃ cfg', addLine cfg line = .ok cfg' := by
  unfold addLine
  split
  next => exact ⟨_, rfl⟩
  next before colon hcolon =>
    have hsome : nodes? line = some (numbers before) := by rw [nodes?_eq, hcolon]; rfl
    obtain ⟨hlength, hnodes⟩ := hline _ hsome
    have hroom : cfg.routes.length < maxRoutes := by
      rw [filterMap_snoc, hsome, ← h.routes, List.length_append, List.length_map] at hroutes
      exact hroutes
    obtain ⟨x, hx⟩ := nodes_total cfg.matrix hlength hnodes
    rw [if_pos hroom, hx]
    exact ⟨_, rfl⟩

/-- After the first line nothing is reported. -/
theorem mark_error {prevNode : Int} {e : Stop} (h : mark prevNode node matrix = .error e) :
    e = .outside := by
  unfold mark at h
  split at h <;> cases h
  rfl

theorem addNode_error {e : Stop} (h : addNode x node = .error e) : e = .outside := by
  unfold addNode at h
  split at h
  · split at h
    next => cases h
    next prevNode _ =>
      cases hmark : mark prevNode node x.2 with
      | ok m => rw [hmark] at h; cases h
      | error e' => rw [hmark] at h; cases h; exact mark_error hmark
  · cases h
    rfl

theorem addLine_error {e : Stop} (h : addLine cfg line = .error e) : e = .outside := by
  unfold addLine at h
  split at h
  next => cases h
  next before colon _ =>
    split at h
    · cases hrun : (numbers before).foldlM addNode ([], cfg.matrix) with
      | ok x => rw [hrun] at h; cases h
      | error e' => rw [hrun] at h; cases h; exact foldlM_error addNode_error hrun
    · cases h
      rfl

/-- **What `load_config` returns.** -/
theorem loadConfig_ok (hheader : header file = some (n, rest)) (h : loadConfig file = .ok cfg) :
    Lines n (lines lineSize rest) cfg := by
  rw [loadConfig, hheader] at h
  exact foldlM_keeps Lines.step ⟨rfl, rfl, by simp, by simp⟩ h

/-- **It returns something** when all arrays are large enough. -/
theorem loadConfig_total (hheader : header file = some (n, rest))
    (hroutes : (paths rest).length ≤ maxRoutes)
    (hpaths : ∀ path ∈ paths rest, path.length ≤ maxPath ∧ ∀ a ∈ path, 0 ≤ a ∧ a < maxN) :
    ∃ cfg, loadConfig file = .ok cfg := by
  rw [loadConfig, hheader]
  refine foldlM_total (I := Lines n) (fun {before line after cfg} heq h => ?_) Lines.step
    ⟨rfl, rfl, by simp, by simp⟩
  rw [paths, heq] at hroutes hpaths
  refine h.turn ?_ fun path hpath => hpaths path ?_
  · refine le_trans (List.Sublist.length_le (List.Sublist.filterMap _ ?_)) hroutes
    exact (List.sublist_append_left ..).append_left _
  · exact List.mem_filterMap.mpr ⟨line, by simp, hpath⟩

/-! ### What is written -/

/-- A line of the file: the nodes of a route, each with a space behind it, a colon and the
message. -/
def routeLine (route : List Int × List UInt8) : List UInt8 :=
  route.1.flatMap (fun node => printInt node ++ [32]) ++ 58 :: route.2

/-- The lines behind the first. -/
def routeLines (routes : List (List Int × List UInt8)) : List UInt8 :=
  (routes.map routeLine).flatMap (· ++ [10])

/-- The file, with the number of the provinces in its first line. -/
def configFile (n : Int) (routes : List (List Int × List UInt8)) : List UInt8 :=
  printInt n ++ 10 :: routeLines routes

/-- A route that can be written: `fgets` gets its line at once. -/
structure Writable (route : List Int × List UInt8) : Prop where
  nodes : ∀ node ∈ route.1, IsInt32 node
  message : 0 ∉ route.2 ∧ 10 ∉ route.2
  fits : (routeLine route).length + 2 ≤ lineSize

/-- Before the colon there are digits, signs and spaces only. -/
theorem notMem_nodes {c : UInt8} (hc : isDigit c = false) (h : c ≠ 45 ∧ c ≠ 32) (path : List Int) :
    c ∉ path.flatMap fun node => printInt node ++ [32] := by
  intro hmem
  obtain ⟨node, -, hnode⟩ := List.mem_flatMap.mp hmem
  rcases List.mem_append.mp hnode with htext | hspace
  · exact notMem_printInt hc h.1 node htext
  · exact h.2 (List.mem_singleton.mp hspace)

section
variable {route : List Int × List UInt8} {routes : List (List Int × List UInt8)}

theorem notMem_routeLine {c : UInt8} (hc : isDigit c = false) (h : c ≠ 45 ∧ c ≠ 32)
    (hcolon : c ≠ 58) (hmessage : c ∉ route.2) : c ∉ routeLine route := by
  rw [routeLine, List.mem_append, List.mem_cons, not_or, not_or]
  exact ⟨notMem_nodes hc h _, hcolon, hmessage⟩

theorem nodes?_routeLine (h : Writable route) :
    nodes? (routeLine route ++ [10]) = some route.1 := by
  have hzero : 0 ∉ routeLine route ++ [10] := by
    simpa using notMem_routeLine rfl (by decide) (by decide) h.message.1
  have hcolon : 58 ∉ route.1.flatMap fun node => printInt node ++ [32] :=
    notMem_nodes rfl (by decide) _
  rw [nodes?, cString_of_notMem hzero, routeLine, List.append_assoc, List.cons_append,
    strchr_append hcolon]
  exact congrArg some (numbers_written h.nodes)

theorem header_configFile {n : Int} (hn : IsInt32 n) (routes : List (List Int × List UInt8)) :
    header (configFile n routes) = some (n, routeLines routes) := by
  have hlen : (printInt n).length ≤ 254 := (length_printInt hn).trans (by decide)
  have hzero : 0 ∉ printInt n ++ [10] := by
    simpa using notMem_printInt rfl (by decide) n
  have hend : ∀ b ∈ [(10 : UInt8)].head?, isDigit b = false := by
    rintro b ⟨⟩
    rfl
  rw [header, configFile, lineSize, fgets_line (notMem_printInt rfl (by decide) n) hlen,
    Option.bind_some]
  change (scanInt (cString (printInt n ++ [10]))).map _ = _
  rw [cString_of_notMem hzero, scanInt_printInt hn hend]
  rfl

theorem paths_routeLines (h : ∀ route ∈ routes, Writable route) :
    paths (routeLines routes) = routes.map Prod.fst := by
  have hlines : ∀ line ∈ routes.map routeLine, 10 ∉ line ∧ line.length ≤ 254 :=
    List.forall_mem_map.mpr fun route hroute =>
      ⟨notMem_routeLine rfl (by decide) (by decide) (h route hroute).message.2,
        Nat.le_of_add_le_add_right (h route hroute).fits⟩
  rw [paths, routeLines, lineSize, lines_written hlines, List.map_map, List.filterMap_map]
  exact List.filterMap_eq_map_iff_forall_eq_some.mpr fun route hroute =>
    nodes?_routeLine (h route hroute)

/-- **The routes that were written are read back**, when all arrays are large enough. -/
theorem loadConfig_written {n : Int} (hn : IsInt32 n) (h : ∀ route ∈ routes, Writable route)
    (hroutes : routes.length ≤ maxRoutes)
    (hpaths : ∀ route ∈ routes, route.1.length ≤ maxPath ∧ ∀ a ∈ route.1, 0 ≤ a ∧ a < maxN) :
    ∃ cfg, loadConfig (configFile n routes) = .ok cfg ∧ cfg.nProvinces = n ∧
      cfg.routes.map PacketT.path = routes.map Prod.fst := by
  have hheader := header_configFile hn routes
  have hread := paths_routeLines h
  obtain ⟨cfg, hcfg⟩ := loadConfig_total hheader (by rw [hread, List.length_map]; exact hroutes)
    (by rw [hread]; exact List.forall_mem_map.mpr hpaths)
  have hlines := loadConfig_ok hheader hcfg
  exact ⟨cfg, hcfg, hlines.nProvinces, hlines.routes.trans hread⟩

end

/-! ### The routes of the provinces -/

/-- The nodes of a route. -/
def Route.nodes {n : Nat} (route : Route n) : List Int := route.path.map fun i => (i.val : Int)

/-- The routes that the processes take over; nothing depends on the messages. -/
structure Config.Represents {n : Nat} (cfg : Config) (routes : List (Route n)) : Prop where
  nProvinces : cfg.nProvinces = n
  paths : cfg.routes.map PacketT.path = routes.map Route.nodes

/-- What is asked of a configuration. -/
structure Config.Sound (cfg : Config) : Prop where
  nProvinces : 1 ≤ cfg.nProvinces ∧ cfg.nProvinces ≤ maxN
  routes : cfg.routes.length ≤ maxRoutes
  pathLen : ∀ pkt ∈ cfg.routes, pkt.path.length ≤ maxPath
  nodes : ∀ pkt ∈ cfg.routes, ∀ node ∈ pkt.path, 0 ≤ node ∧ node < cfg.nProvinces
  starts : ∀ pkt ∈ cfg.routes, pkt.path.head? = some 0
  message : ∀ pkt ∈ cfg.routes, ∀ word ∈ pkt.message, word.length < maxMsg

/-- The provinces have routes, and in every run of them whatever `k` is about to send to `next` goes
to a pipe that `main` has created. -/
structure Config.Forwards (cfg : Config) : Prop where
  represented : ∃ (n : Nat) (routes : List (Route n)), cfg.Represents routes
  created : ∀ {n cap : Nat} {routes : List (Route n)} {tr : Trace n (Message n) Int}
    {s : State n (Message n) Int}, cfg.Represents routes →
    Run (SignalStep cap (generatedHarder routes)) (generatedHarder routes).begin tr s →
    ∀ {k next : Fin n} {c : Message n}, (next, c) ∈ (s.pc (some k)).out →
      cfg.matrix k.val next.val = 1

/-- What is asked of a file. -/
structure Safe (file : List UInt8) : Prop where
  within : loadConfig file ≠ .error .outside
  sound : ∀ cfg, loadConfig file = .ok cfg → cfg.Sound
  forwards : ∀ cfg, loadConfig file = .ok cfg → cfg.Forwards

/-- A file with an `N` from 1 to `MAX_N`, not too many lines with a colon, and in each of these not
too many numbers before it, the first of them 0 and all of them below `N`. -/
structure WellFormed (n : Int) (rest : List UInt8) : Prop where
  first : 1 ≤ n ∧ n ≤ maxN
  colons : (paths rest).length ≤ maxRoutes
  count : ∀ path ∈ paths rest, path.length ≤ maxPath
  below : ∀ path ∈ paths rest, ∀ node ∈ path, 0 ≤ node ∧ node < n
  zero : ∀ path ∈ paths rest, path.head? = some 0

theorem Lines.sound_iff (h : Lines n (lines lineSize rest) cfg) :
    cfg.Sound ↔ WellFormed n rest := by
  have hpaths : cfg.routes.map PacketT.path = paths rest := h.routes
  have hall : ∀ {P : List Int → Prop}, (∀ pkt ∈ cfg.routes, P pkt.path) ↔
      ∀ path ∈ paths rest, P path := by
    intro P
    rw [← hpaths, List.forall_mem_map]
  have hlength : cfg.routes.length = (paths rest).length := by rw [← hpaths, List.length_map]
  constructor
  · intro hs
    exact ⟨h.nProvinces ▸ hs.nProvinces, hlength ▸ hs.routes, hall.mp hs.pathLen,
      hall.mp (h.nProvinces ▸ hs.nodes), hall.mp hs.starts⟩
  · intro hw
    exact ⟨h.nProvinces.symm ▸ hw.first, hlength.symm ▸ hw.colons, hall.mpr hw.count,
      hall.mpr (h.nProvinces.symm ▸ hw.below), hall.mpr hw.zero, h.message⟩

theorem exists_routes (n : Nat) (paths : List (List Int))
    (h : ∀ path ∈ paths, ∀ node ∈ path, 0 ≤ node ∧ node < n) :
    ∃ routes : List (Route n), routes.map Route.nodes = paths := by
  change paths ∈ Set.range (List.map Route.nodes)
  rw [Set.range_list_map]
  intro path hpath
  have hmem : path ∈ Set.range (List.map fun i : Fin n => (i.val : Int)) := by
    rw [Set.range_list_map]
    intro node hnode
    obtain ⟨hnonneg, hlt⟩ := h path hpath node hnode
    exact ⟨⟨node.toNat, by omega⟩, Int.toNat_of_nonneg hnonneg⟩
  obtain ⟨nodes, rfl⟩ := hmem
  exact ⟨⟨nodes, ""⟩, rfl⟩

section
variable {m : Nat} {routes : List (Route m)} {route : Route m} {i j : Fin m}

theorem steps_nodes (h : (i, j) ∈ route.path.zip route.path.tail) :
    ((i.val : Int), (j.val : Int)) ∈ steps route.nodes := by
  rw [steps, Route.nodes, ← List.map_tail, List.zip_map]
  exact List.mem_map.mpr ⟨(i, j), h, rfl⟩

theorem Config.Represents.mem (hrep : cfg.Represents routes) (h : route ∈ routes) :
    ∃ pkt ∈ cfg.routes, pkt.path = route.nodes := by
  have hmem : route.nodes ∈ cfg.routes.map PacketT.path :=
    hrep.paths ▸ List.mem_map_of_mem h
  exact List.mem_map.mp hmem

/-- The routes begin where Casa Rosada injects them. -/
theorem Config.Sound.starts_routes (hs : cfg.Sound) (hrep : cfg.Represents routes) :
    Starts routes := by
  intro route hroute
  obtain ⟨pkt, hpkt, hpath⟩ := hrep.mem hroute
  have hzero := hs.starts pkt hpkt
  rw [hpath, Route.nodes, List.head?_map, Option.map_eq_some_iff] at hzero
  obtain ⟨z, hz, hval⟩ := hzero
  exact ⟨z, Int.ofNat_eq_zero.mp hval, List.head?_eq_getElem? ▸ hz⟩

/-- The pipes of the network are in `matrix`. -/
theorem Lines.created (h : Lines n (lines lineSize rest) cfg) (hrep : cfg.Represents routes)
    (hpipe : (generatedHarder routes).pipe i j = true) : cfg.matrix i.val j.val = 1 := by
  obtain ⟨route, hroute, hstep⟩ := List.any_eq_true.mp hpipe
  obtain ⟨pkt, hpkt, hpath⟩ := hrep.mem hroute
  refine (h.matrix _ _).mpr ⟨route.nodes, ?_, steps_nodes (of_decide_eq_true hstep)⟩
  rw [← h.routes, ← hpath]
  exact List.mem_map_of_mem hpkt

end

theorem Lines.forwards (h : Lines n (lines lineSize rest) cfg) (hs : cfg.Sound) :
    cfg.Forwards where
  represented := by
    have hn : cfg.nProvinces = (cfg.nProvinces.toNat : Int) :=
      (Int.toNat_of_nonneg (by have := hs.nProvinces.1; omega)).symm
    obtain ⟨routes, hroutes⟩ := exists_routes cfg.nProvinces.toNat
      (cfg.routes.map PacketT.path) (List.forall_mem_map.mpr (hn ▸ hs.nodes))
    exact ⟨_, routes, hn, hroutes.symm⟩
  created hrep r _ _ _ hout :=
    h.created hrep (forward_pipe (hs.starts_routes hrep) r hout)

/-! ### The configuration files -/

/-- **The configuration parser.**  For every file: if `load_config` returns, then the number of the
provinces is right, and all routes fit, begin at province 0 and lead to provinces, nothing is stored
outside an array, and every packet is forwarded to a pipe that `main` has created, if and only if
the file has no number in its first line, which `load_config` reports, or is well-formed. -/
theorem loadConfig_law (file : List UInt8) :
    Safe file ↔ ∀ n rest, header file = some (n, rest) → WellFormed n rest := by
  constructor
  · intro hsafe n rest hheader
    cases hload : loadConfig file with
    | ok cfg => exact (loadConfig_ok hheader hload).sound_iff.mp (hsafe.sound cfg hload)
    | error e =>
        -- behind the first line it can only end outside an array
        have he : e = .outside := by
          rw [loadConfig, hheader] at hload
          exact foldlM_error addLine_error hload
        exact absurd (he ▸ hload) hsafe.within
  · intro hw
    cases hheader : header file with
    | none =>
        have herr : loadConfig file = .error .err := by rw [loadConfig, hheader]
        exact ⟨by rw [herr]; simp, by rw [herr]; simp, by rw [herr]; simp⟩
    | some x =>
        obtain ⟨n, rest⟩ := x
        have hwell := hw n rest hheader
        -- below `N`, and so inside `matrix`
        obtain ⟨cfg, hload⟩ := loadConfig_total hheader hwell.colons fun path hpath =>
          ⟨hwell.count path hpath, fun node hnode =>
            ⟨(hwell.below path hpath node hnode).1,
              (hwell.below path hpath node hnode).2.trans_le hwell.first.2⟩⟩
        have hlines := loadConfig_ok hheader hload
        have hsound := hlines.sound_iff.mpr hwell
        have hcfg : ∀ cfg', loadConfig file = .ok cfg' → cfg = cfg' := fun cfg' h' =>
          Except.ok.inj (hload.symm.trans h')
        exact ⟨by rw [hload]; simp, fun cfg' h' => hcfg cfg' h' ▸ hsound,
          fun cfg' h' => hcfg cfg' h' ▸ hlines.forwards hsound⟩

/-- `2`, and the line `0 5:x`. -/
def stray : List UInt8 := [50, 10, 48, 32, 53, 58, 120, 10]

/-- What is read of it. -/
def strayConfig : Config :=
  ⟨2, [⟨[0, 5], 0, some [120]⟩], fun i j => if i = 0 ∧ j = 5 then 1 else 0⟩

/-- A route leads to a province that there is not. -/
theorem stray_unsafe : loadConfig stray = .ok strayConfig ∧ ¬ Safe stray := by
  have hload : loadConfig stray = .ok strayConfig := rfl
  refine ⟨hload, fun hsafe => ?_⟩
  obtain ⟨-, hlt⟩ :=
    (hsafe.sound _ hload).nodes ⟨[0, 5], 0, some [120]⟩ (List.mem_singleton_self _) 5 (by simp)
  exact absurd hlt (by decide)

/-- The routes `0 1 2` and `0 2` of three provinces. -/
def twoRoutes : List (List Int × List UInt8) := [([0, 1, 2], [120]), ([0, 2], [121])]

theorem writable_twoRoutes : ∀ route ∈ twoRoutes, Writable route := by
  simp only [twoRoutes, List.forall_mem_cons]
  exact ⟨⟨by decide, by decide, by decide⟩, ⟨by decide, by decide, by decide⟩,
    List.forall_mem_nil _⟩

/-- Both are read back, and their packets are forwarded to pipes that there are. -/
theorem loadConfig_law_twoRoutes : ∃ cfg, loadConfig (configFile 3 twoRoutes) = .ok cfg ∧
    cfg.routes.map PacketT.path = [[0, 1, 2], [0, 2]] ∧ cfg.Sound ∧ cfg.Forwards := by
  have hsafe : Safe (configFile 3 twoRoutes) := by
    refine (loadConfig_law _).mpr fun n rest h => ?_
    rw [header_configFile (by decide)] at h
    cases h
    have hpaths : paths (routeLines twoRoutes) = [[0, 1, 2], [0, 2]] :=
      paths_routeLines writable_twoRoutes
    exact ⟨by decide, by rw [hpaths]; decide, by rw [hpaths]; decide, by rw [hpaths]; decide,
      by rw [hpaths]; decide⟩
  obtain ⟨cfg, hcfg, -, hroutes⟩ := loadConfig_written (n := 3) (by decide) writable_twoRoutes
    (by decide) (by decide)
  exact ⟨cfg, hcfg, hroutes, hsafe.sound cfg hcfg, hsafe.forwards cfg hcfg⟩

end Sop2.Provinces
