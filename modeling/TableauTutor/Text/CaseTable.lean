/-!
Case data of the Unicode standard: which code points have an upper or lower partner, which become several code points,
and which count as upper, lower or title case. Rows do not overlap; they are written by how many code points are left
out before a row, how many more than one are in it, and their distance.
-/

namespace TableauTutor.Text

/-- the code points first, first + step, … up to last, each moved by shift -/
structure CaseRun where
  first : Nat
  last : Nat
  step : Nat
  shift : Int
deriving DecidableEq, Repr

/-- rows from a code point on, each with its shift -/
def runsFrom (n : Nat) : List Int → List CaseRun
  | out :: more :: step :: shift :: rest =>
    let first := n + out.toNat
    let last := first + more.toNat * step.toNat
    ⟨first, last, step.toNat, shift⟩ :: runsFrom (last + 1) rest
  | _ => []

/-- rows from a code point on: first, last, step -/
def rowsFrom (n : Nat) : List Nat → List (Nat × Nat × Nat)
  | out :: more :: step :: rest =>
    let first := n + out
    let last := first + more * step
    (first, last, step) :: rowsFrom (last + 1) rest
  | _ => []

/-- so many code points in a row become several; the first of them moves along -/
def severalFrom : Nat × Nat × List Nat → List (Nat × List Nat)
  | (first, count, c :: cs) => (List.range count).map fun i => (first + i, (c + i) :: cs)
  | _ => []

/-- code points whose upper case is one code point -/
def upperRuns : List CaseRun := runsFrom 0 [
  97,25,1,-32,58,0,1,743,42,22,1,-32,1,6,1,-32,0,0,1,121,1,23,2,-1,1,0,1,-232,1,2,2,-1,2,7,2,-1,2,22,2,-1,2,2,2,-1,0,
  0,1,-300,0,0,1,195,2,1,2,-1,2,0,1,-1,3,0,1,-1,5,0,1,-1,2,0,1,97,3,0,1,-1,0,0,1,163,3,0,1,130,2,2,2,-1,2,0,1,-1,4,0,
  1,-1,2,0,1,-1,3,1,2,-1,2,0,1,-1,3,0,1,-1,1,0,1,56,5,0,1,-1,0,0,1,-2,1,0,1,-1,0,0,1,-2,1,0,1,-1,0,0,1,-2,1,7,2,-1,0,
  0,1,-79,1,8,2,-1,2,0,1,-1,0,0,1,-2,1,0,1,-1,3,19,2,-1,3,8,2,-1,8,0,1,-1,2,1,1,10815,1,0,1,-1,4,4,2,-1,0,0,1,10783,0,
  0,1,10780,0,0,1,10782,0,0,1,-210,0,0,1,-206,1,1,1,-205,1,0,1,-202,1,0,1,-203,0,0,1,42319,3,0,1,-205,0,0,1,42315,1,0,
  1,-207,1,0,1,42280,0,0,1,42308,1,0,1,-209,0,0,1,-211,0,0,1,42308,0,0,1,10743,0,0,1,42305,2,0,1,-211,1,0,1,10749,0,0,
  1,-213,2,0,1,-214,7,0,1,10727,2,0,1,-218,1,0,1,42307,0,0,1,-218,3,0,1,42282,0,0,1,-218,0,0,1,-69,0,1,1,-217,0,0,1,
  -71,5,0,1,-219,10,0,1,42261,0,0,1,42258,166,0,1,84,43,1,2,-1,3,0,1,-1,3,2,1,130,46,0,1,-38,0,2,1,-37,1,16,1,-32,0,0,
  1,-31,0,8,1,-32,0,0,1,-64,0,1,1,-63,1,0,1,-62,0,0,1,-57,3,0,1,-47,0,0,1,-54,0,0,1,-8,1,11,2,-1,0,0,1,-86,0,0,1,-80,
  0,0,1,7,0,0,1,-116,1,0,1,-96,2,0,1,-1,2,0,1,-1,52,31,1,-32,0,15,1,-80,1,16,2,-1,9,26,2,-1,2,6,2,-1,0,0,1,-15,1,47,2,
  -1,49,37,1,-48,2889,42,1,3008,2,2,1,3008,760,5,1,-8,2178,0,1,-6254,0,0,1,-6253,0,0,1,-6244,0,1,1,-6242,0,0,1,-6243,
  0,0,1,-6236,0,0,1,-6181,0,0,1,35266,240,0,1,35332,3,0,1,3814,16,0,1,35384,114,74,2,-1,5,0,1,-59,5,47,2,-1,0,7,1,8,8,
  5,1,8,10,7,1,8,8,7,1,8,8,5,1,8,11,3,2,8,8,7,1,8,8,1,1,74,0,3,1,86,0,1,1,100,0,1,1,128,0,1,1,112,0,1,1,126,50,1,1,8,
  12,0,1,-7205,17,1,1,8,14,1,1,8,3,0,1,7,360,0,1,-28,33,15,1,-16,4,0,1,-1,843,25,1,-26,1862,47,1,-48,1,0,1,-1,3,0,1,
  -10795,0,0,1,-10792,1,2,2,-1,6,0,1,-1,2,0,1,-1,10,49,2,-1,8,1,2,-1,4,0,1,-1,12,37,1,-7264,1,0,1,-7264,5,0,1,-7264,
  30995,22,2,-1,19,13,2,-1,135,6,2,-1,3,30,2,-1,10,1,2,-1,2,4,2,-1,4,0,1,-1,4,1,2,-1,0,0,1,48,2,9,2,-1,11,7,2,-1,4,1,
  2,-1,6,0,1,-1,5,1,2,-1,28,0,1,-1,860,0,1,-928,28,79,1,-38864,21377,25,1,-32,1229,39,1,-40,136,35,1,-40,155,10,1,-39,
  1,14,1,-39,1,6,1,-39,1,1,1,-39,1795,50,1,-64,3021,31,1,-32,21888,31,1,-32,31394,33,1,-34]

/-- code points whose upper case is several code points -/
def upperSpecials : List (Nat × List Nat) := [
  (223, 1, [83, 83]), (329, 1, [700, 78]), (496, 1, [74, 780]), (912, 1, [921, 776, 769]), (944, 1, [933, 776, 769]),
  (1415, 1, [1333, 1362]), (7830, 1, [72, 817]), (7831, 1, [84, 776]), (7832, 1, [87, 778]), (7833, 1, [89, 778]),
  (7834, 1, [65, 702]), (8016, 1, [933, 787]), (8018, 1, [933, 787, 768]), (8020, 1, [933, 787, 769]),
  (8022, 1, [933, 787, 834]), (8064, 8, [7944, 921]), (8072, 8, [7944, 921]), (8080, 8, [7976, 921]),
  (8088, 8, [7976, 921]), (8096, 8, [8040, 921]), (8104, 8, [8040, 921]), (8114, 1, [8122, 921]), (8115, 1, [913, 921]),
  (8116, 1, [902, 921]), (8118, 1, [913, 834]), (8119, 1, [913, 834, 921]), (8124, 1, [913, 921]),
  (8130, 1, [8138, 921]), (8131, 1, [919, 921]), (8132, 1, [905, 921]), (8134, 1, [919, 834]),
  (8135, 1, [919, 834, 921]), (8140, 1, [919, 921]), (8146, 1, [921, 776, 768]), (8147, 1, [921, 776, 769]),
  (8150, 1, [921, 834]), (8151, 1, [921, 776, 834]), (8162, 1, [933, 776, 768]), (8163, 1, [933, 776, 769]),
  (8164, 1, [929, 787]), (8166, 1, [933, 834]), (8167, 1, [933, 776, 834]), (8178, 1, [8186, 921]),
  (8179, 1, [937, 921]), (8180, 1, [911, 921]), (8182, 1, [937, 834]), (8183, 1, [937, 834, 921]),
  (8188, 1, [937, 921]), (64256, 1, [70, 70]), (64257, 1, [70, 73]), (64258, 1, [70, 76]), (64259, 1, [70, 70, 73]),
  (64260, 1, [70, 70, 76]), (64261, 1, [83, 84]), (64262, 1, [83, 84]), (64275, 1, [1348, 1350]),
  (64276, 1, [1348, 1333]), (64277, 1, [1348, 1339]), (64278, 1, [1358, 1350]), (64279, 1, [1348, 1341])].flatMap
  severalFrom

/-- code points whose title case differs from their upper case -/
def titleSpecials : List (Nat × List Nat) := [
  (223, 1, [83, 115]), (452, 1, [453]), (453, 1, [453]), (454, 1, [453]), (455, 1, [456]), (456, 1, [456]),
  (457, 1, [456]), (458, 1, [459]), (459, 1, [459]), (460, 1, [459]), (497, 1, [498]), (498, 1, [498]), (499, 1, [498]),
  (1415, 1, [1333, 1410]), (4304, 43, [4304]), (4349, 3, [4349]), (8064, 8, [8072]), (8072, 8, [8072]),
  (8080, 8, [8088]), (8088, 8, [8088]), (8096, 8, [8104]), (8104, 8, [8104]), (8114, 1, [8122, 837]), (8115, 1, [8124]),
  (8116, 1, [902, 837]), (8119, 1, [913, 834, 837]), (8124, 1, [8124]), (8130, 1, [8138, 837]), (8131, 1, [8140]),
  (8132, 1, [905, 837]), (8135, 1, [919, 834, 837]), (8140, 1, [8140]), (8178, 1, [8186, 837]), (8179, 1, [8188]),
  (8180, 1, [911, 837]), (8183, 1, [937, 834, 837]), (8188, 1, [8188]), (64256, 1, [70, 102]), (64257, 1, [70, 105]),
  (64258, 1, [70, 108]), (64259, 1, [70, 102, 105]), (64260, 1, [70, 102, 108]), (64261, 1, [83, 116]),
  (64262, 1, [83, 116]), (64275, 1, [1348, 1398]), (64276, 1, [1348, 1381]), (64277, 1, [1348, 1387]),
  (64278, 1, [1358, 1398]), (64279, 1, [1348, 1389])].flatMap severalFrom

/-- the first code points of rows that no lower case leads back to -/
def oneWay : List Nat := [
  181, 305, 383, 453, 456, 459, 498, 837, 962, 976, 977, 981, 982, 1008, 1009, 1013, 7296, 7297, 7298, 7299, 7301, 7302,
  7303, 7304, 7835, 8126]

/-- code points whose lower case is one code point -/
def lowerRuns : List CaseRun := runsFrom 0 [
  453,0,1,1,2,0,1,1,2,0,1,1,38,0,1,1,513,0,1,-60,6825,0,1,-7615,233,7,1,-8,8,7,1,-8,8,7,1,-8,12,0,1,-9,15,0,1,-9,47,0,
  1,-9,297,0,1,-7517,3,0,1,-8383,0,0,1,-8262] ++
  (upperRuns.filter (!oneWay.contains ·.first)).map fun r =>
    ⟨(r.first + r.shift).toNat, (r.last + r.shift).toNat, r.step, -r.shift⟩

/-- code points whose lower case is several code points -/
def lowerSpecials : List (Nat × List Nat) := [(304, [105, 775])]

/-- code points that count as title case: first, last, step -/
def titleClass : List (Nat × Nat × Nat) := rowsFrom 0 [
  453,0,1,2,0,1,2,0,1,38,0,1,7573,7,1,8,7,1,8,7,1,12,0,1,15,0,1,47,0,1]

/-- the rows that do not count as title case -/
def untitled (rows : List CaseRun) : List (Nat × Nat × Nat) :=
  (rows.filter fun r => titleClass.all fun (first, last, _) => r.first < first || last < r.first).map fun r =>
    (r.first, r.last, r.step)

/-- code points that count as upper case: first, last, step -/
def upperClass : List (Nat × Nat × Nat) := untitled lowerRuns ++ rowsFrom 0 [
  304,0,1,673,2,1,7469,0,1,4,0,1,3,2,1,2,2,1,2,0,1,3,4,1,6,0,1,3,0,1,3,1,1,2,1,1,1,0,1,10,1,1,5,0,1,111290,25,1,26,25,
  1,26,25,1,26,1,2,0,0,1,2,0,1,2,1,1,2,3,1,1,7,1,26,25,1,26,1,1,1,3,1,2,7,1,1,6,1,27,1,1,1,3,1,1,4,1,1,0,1,3,6,1,27,
  25,1,26,25,1,26,25,1,26,25,1,26,25,1,26,25,1,30,24,1,33,24,1,33,24,1,33,24,1,33,24,1,33,0,1,6501,25,1,6,25,1,6,25,1]

/-- code points that count as lower case: first, last, step -/
def lowerClass : List (Nat × Nat × Nat) := untitled upperRuns ++ rowsFrom 0 [
  170,0,1,15,0,1,36,0,1,88,0,1,16,0,1,67,0,1,13,0,1,14,1,1,14,0,1,3,0,1,49,0,1,48,0,1,18,5,1,27,0,1,2,1,2,2,2,1,2,1,2,
  2,0,1,5,1,1,1,0,1,2,1,1,1,6,1,1,1,1,1,0,1,2,2,1,6,4,1,1,1,2,0,6,1,2,25,1,7,1,1,30,4,1,149,0,1,21,0,1,31,0,1,75,0,1,
  355,0,1,38,1,1,6007,120,1,1,2,1,1,15,1,1,48,1,214,4,1,1,1,1,1,0,1,176,3,2,41,7,1,8,7,1,8,7,1,10,2,1,1,1,1,10,2,1,1,
  1,1,10,1,1,2,1,1,10,2,1,1,1,1,10,2,1,1,1,1,121,0,1,13,0,1,16,12,1,109,0,1,3,1,1,3,0,1,27,0,1,4,0,1,4,0,1,2,1,1,8,3,
  1,2855,0,1,2,0,1,2,6,1,102,0,1,31159,1,1,146,1,1,62,8,1,21,0,1,6,0,1,25,0,1,35,1,2,34,2,1,821,34,1,1,6,1,1,12,1,
  20375,6,1,12,4,1,3176,0,1,2,2,1,1,41,1,1,8,1,52319,25,1,26,6,1,1,17,1,26,25,1,26,3,1,1,1,2,0,5,1,1,10,1,26,25,1,26,
  25,1,26,25,1,26,25,1,26,25,1,26,25,1,26,25,1,26,25,1,26,27,1,28,24,1,1,5,1,26,24,1,1,5,1,26,24,1,1,5,1,26,24,1,1,5,
  1,26,24,1,1,5,1,1,0,1,1844,9,1,1,19,1]

end TableauTutor.Text
