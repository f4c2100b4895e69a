import TableauTutor.Text.Basic

/-!
Names of characters in the Unicode standard: Latin, Greek and Cyrillic letters, punctuation, signs of currency,
letterlike signs, arrows, most mathematical operators and geometric shapes, and the control characters.
-/

namespace TableauTutor.Text

/-- words that stand often in names, where a sign is written for them -/
def charNameWords : List (Char × String) :=
  "abcdefghijklmnopqrstuvwxyz012345678!$%&*+/:<=>?@^_|~".toList.zip (List.flatMap (splitAt ';')
    ["-POINTING ;-STRUCK ;AND ;ARROW;BAR;BLACK;BOX DRAWINGS ;BRACKET;CAPITAL ;CIRCLE;CIRCUMFLEX;DOUBLE;DOWN",
    "ELEMENT OF;EQUAL TO;EQUIVALENT TO;GREATER-THAN;GREEK ;HALF ;HEAVY;HORIZONTAL;LATIN ;LEFT;LESS-THAN;LETTER ",
    "LIGHT;LOWER ;LUNATE SIGMA ;MATHEMATICAL ;MODIFIER ;NORMAL SUBGRO;NOT ;OR ;QUADRANT;QUOTATION MARK;REVERSED",
    "RIGHT;SIGN;SINGLE;SMALL ;SQUARE;STROKE;SUBSCRIPT ;SUPERSCRIPT ;SYMBOL;TRIANGLE;UP;UPPER ;VERTICAL;WARDS ;WHITE ",
    "WITH "])

/-- letters in a row: the first capital, the first small letter, the distance to the next one, the script, and what they
are called, separated by semicolons -/
def letterNameRuns : List (Nat × Nat × Nat × String × List String) := [
  (65, 97, 1, "LATIN", ["A;B;C;D;E;F;G;H;I;J;K;L;M;N;O;P;Q;R;S;T;U;V;W;X;Y;Z"]),
  (192, 224, 1, "LATIN", ["A ~GRAVE;A ~ACUTE;A ~k;A ~TILDE;A ~DIAERESIS;A ~RING ABOVE;AE;C ~CEDILLA;E ~GRAVE",
    "E ~ACUTE;E ~k;E ~DIAERESIS;I ~GRAVE;I ~ACUTE;I ~k;I ~DIAERESIS;ETH;N ~TILDE;O ~GRAVE;O ~ACUTE;O ~k;O ~TILDE",
    "O ~DIAERESIS"]),
  (216, 248, 1, "LATIN", ["O ~/;U ~GRAVE;U ~ACUTE;U ~k;U ~DIAERESIS;Y ~ACUTE;THORN"]),
  (256, 257, 2, "LATIN", ["A ~MACRON;A ~BREVE;A ~OGONEK;C ~ACUTE;C ~k;C ~DOT ABOVE;C ~CARON;D ~CARON;D ~/;E ~MACRON",
    "E ~BREVE;E ~DOT ABOVE;E ~OGONEK;E ~CARON;G ~k;G ~BREVE;G ~DOT ABOVE;G ~CEDILLA;H ~k;H ~/;I ~TILDE;I ~MACRON",
    "I ~BREVE;I ~OGONEK"]),
  (308, 309, 2, "LATIN", ["J ~k;K ~CEDILLA"]),
  (313, 314, 2, "LATIN", ["L ~ACUTE;L ~CEDILLA;L ~CARON;L ~MIDDLE DOT;L ~/;N ~ACUTE;N ~CEDILLA;N ~CARON"]),
  (330, 331, 2, "LATIN", ["ENG;O ~MACRON;O ~BREVE;O ~l ACUTE"]),
  (340, 341, 2, "LATIN", ["R ~ACUTE;R ~CEDILLA;R ~CARON;S ~ACUTE;S ~k;S ~CEDILLA;S ~CARON;T ~CEDILLA;T ~CARON;T ~/",
    "U ~TILDE;U ~MACRON;U ~BREVE;U ~RING ABOVE;U ~l ACUTE;U ~OGONEK;W ~k;Y ~k"]),
  (376, 255, 1, "LATIN", ["Y ~DIAERESIS"]),
  (377, 378, 2, "LATIN", ["Z ~ACUTE;Z ~DOT ABOVE;Z ~CARON"]),
  (880, 881, 2, "GREEK", ["HETA;ARCHAIC SAMPI"]),
  (886, 887, 1, "GREEK", ["PAMPHYLIAN DIGAMMA"]),
  (902, 940, 1, "GREEK", ["ALPHA ~TONOS"]),
  (904, 941, 1, "GREEK", ["EPSILON ~TONOS;ETA ~TONOS;IOTA ~TONOS"]),
  (908, 972, 1, "GREEK", ["OMICRON ~TONOS"]),
  (910, 973, 1, "GREEK", ["?SILON ~TONOS;OMEGA ~TONOS"]),
  (913, 945, 1, "GREEK", ["ALPHA;BETA;GAMMA;DELTA;EPSILON;ZETA;ETA;THETA;IOTA;KAPPA;LAMDA;MU;NU;XI;OMICRON;PI;RHO"]),
  (931, 963, 1, "GREEK", ["SIGMA;TAU;?SILON;PHI;CHI;PSI;OMEGA;IOTA ~DIALYTIKA;?SILON ~DIALYTIKA"]),
  (994, 995, 2, "COPTIC", ["SHEI;FEI;KHEI;HORI;GANGIA;SHIMA;DEI"]),
  (1015, 1016, 1, "GREEK", ["SHO"]),
  (1018, 1019, 1, "GREEK", ["SAN"]),
  (1024, 1104, 1, "CYRILLIC", ["IE ~GRAVE;IO;DJE;GJE;UKRAINIAN IE;DZE;BYELORUSSIAN-UKRAINIAN I;YI;JE;LJE;NJE;TSHE",
    "KJE;I ~GRAVE;SHORT U;DZHE"]),
  (1040, 1072, 1, "CYRILLIC", ["A;BE;VE;GHE;DE;IE;ZHE;ZE;I;SHORT I;KA;EL;EM;EN;O;PE;ER;ES;TE;U;EF;HA;TSE;CHE;SHA",
    "SHCHA;HARD %;YERU;SOFT %;E;YU;YA"])]

/-- names of other code points in a row, separated by semicolons, with the first of these code points -/
def charNameRuns : List (Nat × List String) := [
  (32, ["SPACE;EXCLAMATION MARK;8;NUMBER %;DOLLAR %;PERCENT %;AMPERSAND;APOSTROPHE;w PARENTHESIS;$ PARENTHESIS",
    "ASTERISK;PLUS %;COMMA;HYPHEN-MINUS;FULL STOP;SOLIDUS;DIGIT ZERO;DIGIT ONE;DIGIT TWO;DIGIT THREE;DIGIT FOUR",
    "DIGIT FIVE;DIGIT SIX;DIGIT SEVEN;DIGIT EIGHT;DIGIT NINE;COLON;SEMICOLON;x %;EQUALS %;q %;QUESTION MARK",
    "COMMERCIAL AT"]),
  (91, ["w + h;REVERSE SOLIDUS;$ + h;k ACCENT;LOW LINE;GRAVE ACCENT"]),
  (123, ["w CURLY h;^ LINE;$ CURLY h;TILDE"]),
  (160, ["NO-BREAK SPACE;INVERTED EXCLAMATION MARK;CENT %;POUND %;CURRENCY %;YEN %;BROKEN e;SECTION %;DIAERESIS",
    "COPY$ %;FEMININE ORDINAL INDICATOR;wal ANGLE 8;5%;SOFT HYPHEN;REGISTERED %;MACRON;DEGREE %;PLUS-MINUS %;<TWO",
    "<THREE;ACUTE ACCENT;MICRO %;PILCROW %;MIDDLE DOT;CEDILLA;<ONE;MASCULINE ORDINAL INDICATOR;$al ANGLE 8",
    "VULGAR FRACTION ONE QUARTER;VULGAR FRACTION ONE HALF;VULGAR FRACTION THREE QUARTERS;INVERTED QUESTION MARK"]),
  (215, ["MULTIPLICATION %"]),
  (223, ["v*ySHARP S"]),
  (247, ["DIVISION %"]),
  (304, ["viyI ~DOT ABOVE;v*yDOTLESS I;viLIGATURE IJ;v*LIGATURE IJ"]),
  (312, ["v*yKRA"]),
  (329, ["v*yN PRECEDED BY APOSTROPHE"]),
  (338, ["viLIGATURE OE;v*LIGATURE OE"]),
  (383, ["v*yLONG S"]),
  (710, ["3yk ACCENT;CARON;3y^ LINE;3yMACRON;3yACUTE ACCENT;3yGRAVE ACCENT;3yLOW ^ LINE;3yLOW MACRON",
    "3yLOW GRAVE ACCENT;3yLOW ACUTE ACCENT;3yTRIANGULAR COLON;3ysTRIANGULAR COLON;3yCENTRED $ sRING",
    "3yCENTRED w sRING;3y? TACK;3ym TACK;3yPLUS %;3yMINUS %;BREVE;DOT ABOVE;RING ABOVE;OGONEK;*TILDE;l ACUTE ACCENT"]),
  (884, ["rNUMERAL %;r0NUMERAL %"]),
  (890, ["rYPOGEGRAMMENI;r*! 1=;r*DOTTED 1=;r*! DOTTED 1=;rQUESTION MARK;riyYOT"]),
  (900, ["rTONOS;rDIALYTIKA TONOS"]),
  (903, ["rANO TELEIA"]),
  (912, ["r*yIOTA ~DIALYTIKA cTONOS"]),
  (944, ["r*y?SILON ~DIALYTIKA cTONOS"]),
  (962, ["r*yFINAL SIGMA"]),
  (975, ["riKAI =;rBETA =;rTHETA =;r?SILON ~HOOK =;r?SILON ~ACUTE cHOOK =;r?SILON ~DIAERESIS cHOOK =;rPHI =;rPI =",
    "rKAI =;ryARCHAIC KOPPA;r*yARCHAIC KOPPA;rySTIGMA;r*ySTIGMA;ryDIGAMMA;r*yDIGAMMA;ryKOPPA;r*yKOPPA;rySAMPI",
    "r*ySAMPI"]),
  (1008, ["rKAPPA =;rRHO =;r1=;ryYOT;riTHETA =;rLUNATE EPSILON =;r! LUNATE EPSILON ="]),
  (1017, ["ri1="]),
  (1020, ["rRHO ~/ =;ri! 1=;riDOTTED 1=;ri! DOTTED 1="]),
  (8208, ["HYPHEN;NON-BREAKING HYPHEN;FIGURE DASH;EN DASH;EM DASH;u e;l ^ LINE;l LOW LINE;w & 8;$ & 8;& LOW-9 8",
    "& HIGH-!-9 8;w l 8;$ l 8;l LOW-9 8;l HIGH-!-9 8;DAGGER;l DAGGER;BULLET;TRIANGULAR BULLET;ONE DOT LEADER",
    "TWO DOT LEADER;u ELLIPSIS;HYPHENATION POINT"]),
  (8240, ["PER MILLE %;PER TEN THOUSc%;PRIME;l PRIME;TRIPLE PRIME;! PRIME;! l PRIME;! TRIPLE PRIME;CARET",
    "& waANGLE 8;& $aANGLE 8;REFERENCE MARK;l EXCLAMATION MARK;INTERROBANG;OVERLINE;UNDERTIE;CHARACTER TIE",
    "CARET INSERTION POINT;ASTERISM;HYPHEN BULLET;FRACTION SLASH;w + h ~QUILL;$ + h ~QUILL;l QUESTION MARK",
    "QUESTION EXCLAMATION MARK;EXCLAMATION QUESTION MARK;TIRONIAN % ET;! PILCROW %;f w_BULLET;f $_BULLET",
    "LOW ASTERISK;! SEMICOLON;CLOSE ?;TWO ASTERISKS ALIGNED ^LY;COMMERCIAL MINUS %;SWUNG DASH;INVERTED UNDERTIE",
    "F0PUNCTUATION MARK;THREE DOT PUNCTUATION;QUADR?LE PRIME;FOUR DOT PUNCTUATION;FIVE DOT PUNCTUATION",
    "TWO DOT PUNCTUATION;FOUR DOT MARK;DOTTED CROSS;TRICOLON;^ FOUR DOTS"]),
  (8304, ["<ZERO;<v*yI"]),
  (8308, ["<FOUR;<FIVE;<SIX;<SEVEN;<EIGHT;<NINE;<PLUS %;<MINUS;<EQUALS %;<w PARENTHESIS;<$ PARENTHESIS;<v*yN;:ZERO",
    ":ONE;:TWO;:THREE;:FOUR;:FIVE;:SIX;:SEVEN;:EIGHT;:NINE;:PLUS %;:MINUS;:EQUALS %;:w PARENTHESIS;:$ PARENTHESIS"]),
  (8336, ["v:*yA;v:*yE;v:*yO;v:*yX;v:*ySCHWA;v:*yH;v:*yK;v:*yL;v:*yM;v:*yN;v:*yP;v:*yS;v:*yT"]),
  (8352, ["EURO-CURRENCY %;COLON %;CRUZEIRO %;FRENCH FRANC %;LIRA %;MILL %;NAIRA %;PESETA %;R?EE %;WON %",
    "NEW SHEQEL %;DONG %;EURO %;KIP %;TUGRIK %;DRACHMA %;GERMAN PENNY %;PESO %;GUARANI %;AUSTRAL %;HRYVNIA %;CEDI %",
    "LIVRE TOURNOIS %;SPESMILO %;TENGE %;INDIAN R?EE %;TURKISH LIRA %;NORDIC MARK %;MANAT %;RUBLE %;LARI %;BITCOIN %",
    "SOM %"]),
  (8448, ["ACCOUNT OF;ADDRESSED TO THE SUBJECT;lbiC;DEGREE CELSIUS;CENTRE LINE =;CARE OF;CADA UNA;EULER CONSTANT",
    "SCR?LE;DEGREE FAHRENHEIT;SCRIPT *G;SCRIPT iH;f-yiH;lbiH;PLANCK CONSTANT;PLANCK CONSTANT OVER TWO PI;SCRIPT iI",
    "f-yiI;SCRIPT iL;SCRIPT *L;L B e =;lbiN;NUMERO %;SOUND RECORDING COPY$;SCRIPT iP;lbiP;lbiQ;SCRIPT iR;f-yiR;lbiR",
    "PRESCRIPTION TAKE;RESPONSE;SERVICE MARK;TELEPHONE %;TRADE MARK %;VERSICLE;lbiZ;OUNCE %;OHM %;INVERTED OHM %",
    "f-yiZ;TURNED r*yIOTA;KELVIN %;ANGSTROM %;SCRIPT iB;f-yiC;ESTIMATED =;SCRIPT *E;SCRIPT iE;SCRIPT iF;TURNED iF",
    "SCRIPT iM;SCRIPT *O;ALEF =;BET =;GIMEL =;DALET =;INFORMATION SOURCE;ROTATED iQ;FACSIMILE %;lb*PI;lb*GAMMA",
    "lbiGAMMA;lbiPI;lbN-ARY SUMMATION;TURNED SANS-SERIF iG;TURNED SANS-SERIF iL;! SANS-SERIF iL;TURNED SANS-SERIF iY",
    "lbITALIC iD;lbITALIC *D;lbITALIC *E;lbITALIC *I;lbITALIC *J;PROPERTY LINE;TURNED AMPERSAND;PER %;AKTIESELSKAB",
    "TURNED *F;= F6SAMARITAN SOURCE"]),
  (8592, ["w_d;?_d;$_d;m_d;w $ d;? m d;NORTH WEST d;NORTH EAST d;SOUTH EAST d;SOUTH WEST d;w_d ~/;$_d ~/;w_WAVE d",
    "$_WAVE d;w_TWO HEADED d;?_TWO HEADED d;$_TWO HEADED d;m_TWO HEADED d;w_d ~TAIL;$_d ~TAIL;w_d FROM e;?_d FROM e",
    "$_d FROM e;m_d FROM e;? m d ~BASE;w_d ~HOOK;$_d ~HOOK;w_d ~LOOP;$_d ~LOOP;w $ WAVE d;w $ d ~/;m_ZIGZAG d",
    "?_d ~TIP wWARDS;?_d ~TIP $WARDS;m_d ~TIP wWARDS;m_d ~TIP $WARDS;$_d ~CORNER mWARDS;m_d ~CORNER wWARDS",
    "ANTICLOCKWISE TOP SEMIj d;CLOCKWISE TOP SEMIj d;NORTH WEST d TO LONG e;w_d TO e OVER $_d TO e",
    "ANTICLOCKWISE OPEN j d;CLOCKWISE OPEN j d;w_HARPOON ~eB ?WARDS;w_HARPOON ~eB mWARDS;?_HARPOON ~eB $WARDS",
    "?_HARPOON ~eB wWARDS;$_HARPOON ~eB ?WARDS;$_HARPOON ~eB mWARDS;m_HARPOON ~eB $WARDS;m_HARPOON ~eB wWARDS",
    "$_d OVER w_d;?_d w_OF m_d;w_d OVER $_d;w_PAIRED dS;?_PAIRED dS;$_PAIRED dS;m_PAIRED dS;w_HARPOON OVER $_HARPOON",
    "$_HARPOON OVER w_HARPOON;w_l d ~/;w $ l d ~/;$_l d ~/;w_l d;?_l d;$_l d;m_l d;w $ l d;? m l d;NORTH WEST l d",
    "NORTH EAST l d;SOUTH EAST l d;SOUTH WEST l d;w_TRIPLE d;$_TRIPLE d;w_SQUIGGLE d;$_SQUIGGLE d;?_d ~l /;m_d ~l /",
    "w_DASHED d;?_DASHED d;$_DASHED d;m_DASHED d;w_d TO e;$_d TO e;w_|d;?_|d;$_|d;m_|d;?_|d FROM e;?_|d ON PEDESTAL",
    "?_|d ON PEDESTAL ~u e;?_|d ON PEDESTAL ~^ e;?_|l d;?_|l d ON PEDESTAL;$_|d FROM WALL;NORTH WEST d TO CORNER",
    "SOUTH EAST d TO CORNER;? m |d;$ d ~*j;m_d w_OF ?_d;THREE $_dS;w_d ~^ /;$_d ~^ /;w $ d ~^ /;w_d ~l ^ /",
    "$_d ~l ^ /;w $ d ~l ^ /;w_OPEN-HEADED d;$_OPEN-HEADED d;w $ OPEN-HEADED d;F6ALL;COMPLEMENT;PARTIAL DIFFERENTIAL",
    "THERE EXISTS;THERE DOES 5EXIST;EMPTY SET;INCREMENT;NABLA;n;5AN n;*n;CONTAINS AS MEMBER;DOES 5CONTAIN AS MEMBER",
    "*CONTAINS AS MEMBER;END OF PROOF;N-ARY PRODUCT;N-ARY COPRODUCT;N-ARY SUMMATION;MINUS %;MINUS-OR-PLUS %;DOT PLUS",
    "DIVISION SLASH;SET MINUS;ASTERISK OPERATOR;RING OPERATOR;BULLET OPERATOR;+ ROOT;CUBE ROOT;FOURTH ROOT",
    "PROPORTIONAL TO;INFINITY;$ ANGLE;ANGLE;MEASURED ANGLE;SPHERICAL ANGLE;DIVIDES;DOES 5DIVIDE;PARALLEL TO",
    "5PARALLEL TO;LOGICAL AND;LOGICAL OR;INTERSECTION;UNION;INTEGRAL;l INTEGRAL;TRIPLE INTEGRAL;CONTOUR INTEGRAL",
    "SURFACE INTEGRAL;VOLUME INTEGRAL;CLOCKWISE INTEGRAL;CLOCKWISE CONTOUR INTEGRAL;ANTICLOCKWISE CONTOUR INTEGRAL",
    "THEREFORE;BECAUSE;RATIO;PROPORTION;DOT MINUS;EXCESS;GEOMETRIC PROPORTION;HOMOTHETIC;TILDE OPERATOR;! TILDE",
    "INVERTED LAZY S;SINE WAVE;WREATH PRODUCT;5TILDE;MINUS TILDE;ASYMPTOTICALLY o;5ASYMPTOTICALLY o;APPROXIMATELY o",
    "APPROXIMATELY BUT 5ACTUALLY o;NEITHER APPROXIMATELY N6ACTUALLY o;ALMOST o;5ALMOST o;ALMOST EQUAL 6o",
    "TRIPLE TILDE;ALL o;p;GEOMETRICALLY p;DIFFERENCE BETWEEN;APPROACHES THE LIMIT;GEOMETRICALLY o",
    "APPROXIMATELY o 6THE IMAGE OF;IMAGE OF 6APPROXIMATELY o;COLON EQUALS;EQUALS COLON;RING IN o;RING o",
    "CORRESPONDS TO;ESTIMATES;EQUIANGULAR TO;STAR EQUALS;DELTA o;o BY DEFINITION;MEASURED BY;QUESTIONED o;5o",
    "IDENTICAL TO;5IDENTICAL TO;STRICTLY p;x 6o;q 6o;x OVER o;q OVER o;x BUT 5o;q BUT 5o;MUCH x;MUCH q;BETWEEN;5p;5x",
    "5q;NEITHER x N6o;NEITHER q N6o;x 6p;q 6p;NEITHER x N6p;NEITHER q N6p;x 6q;q 6x;NEITHER x N6q;NEITHER q N6x",
    "PRECEDES;SUCCEEDS;PRECEDES 6o;SUCCEEDS 6o;PRECEDES 6p;SUCCEEDS 6p;DOES 5PRECEDE;DOES 5SUCCEED;SUBSET OF",
    "S?ERSET OF;5A SUBSET OF;5A S?ERSET OF;SUBSET OF 6o;S?ERSET OF 6o;NEITHER A SUBSET OF N6o",
    "NEITHER A S?ERSET OF N6o;SUBSET OF ~5o;S?ERSET OF ~5o;MULTISET;MULTISET MULTIPLICATION;MULTISET UNION",
    "+ IMAGE OF"]),
  (8849, ["+ IMAGE OF 6o"]),
  (8851, ["+ CAP;+ C?;jD PLUS;jD MINUS;jD TIMES;jD DIVISION SLASH;jD DOT OPERATOR;jD RING OPERATOR",
    "jD ASTERISK OPERATOR;jD EQUALS;jD DASH;+D PLUS;+D MINUS;+D TIMES;+D DOT OPERATOR;$ TACK;w TACK;m TACK;? TACK",
    "ASSERTION;MODELS;TRUE;FORCES;TRIPLE ^ e $ TURNSTILE;l ^ e l $ TURNSTILE;DOES 5PROVE;5TRUE;DOES 5FORCE",
    "NEGATED l ^ e l $ TURNSTILE;PRECEDES UNDER RELATION;SUCCEEDS UNDER RELATION;4? OF;CONTAINS AS 4?;4? OF 6o",
    "CONTAINS AS 4? 6o"]),
  (8887, ["IMAGE OF;MULTIMAP;HERMITIAN CONJUGATE MATRIX;INTERCALATE;XOR;NAND;NOR;$ ANGLE ~ARC;$ >;N-ARY LOGICAL AND",
    "N-ARY LOGICAL OR;N-ARY INTERSECTION;N-ARY UNION;DIAMOND OPERATOR;DOT OPERATOR;STAR OPERATOR;DIVISION TIMES",
    "BOWTIE;w NORMAL FACT6SEMIDIRECT PRODUCT;$ NORMAL FACT6SEMIDIRECT PRODUCT;w SEMIDIRECT PRODUCT",
    "$ SEMIDIRECT PRODUCT;! TILDE EQUALS;CURLY LOGICAL OR;CURLY LOGICAL AND;l SUBSET;l S?ERSET;l INTERSECTION",
    "l UNION;PITCHFORK;EQUAL cPARALLEL TO;x ~DOT;q ~DOT;VERY MUCH x;VERY MUCH q;x o 6q;q o 6x;o 6x;o 6q;o 6PRECEDES",
    "o 6SUCCEEDS;DOES 5PRECEDE 6EQUAL;DOES 5SUCCEED 6EQUAL;5+ IMAGE OF 6o"]),
  (8932, ["+ IMAGE OF 65o"]),
  (8934, ["x BUT 5p;q BUT 5p;PRECEDES BUT 5p;SUCCEEDS BUT 5p;54? OF;DOES 5CONTAIN AS 4?;54? OF 6o",
    "DOES 5CONTAIN AS 4? 6EQUAL;^ ELLIPSIS;MIDLINE u ELLIPSIS;? $ DIAGONAL ELLIPSIS;m $ DIAGONAL ELLIPSIS",
    "n ~LONG u /;n ~^ e AT END OF u /;*n ~^ e AT END OF u /;n ~DOT ABOVE;n ~OVERe;*n ~OVERe;n ~UNDERe;n ~TWO u /S",
    "CONTAINS ~LONG u /;CONTAINS ~^ e AT END OF u /;*CONTAINS ~^ e AT END OF u /;CONTAINS ~OVERe;*CONTAINS ~OVERe",
    "Z NOTATION BAG MEMBERSHIP"]),
  (8968, ["w CEILING;$ CEILING;w FLOOR;$ FLOOR"]),
  (9472, ["gz u;gt u;gz ^;gt ^;gz TRIPLE DASH u;gt TRIPLE DASH u;gz TRIPLE DASH ^;gt TRIPLE DASH ^",
    "gz QUADR?LE DASH u;gt QUADR?LE DASH u;gz QUADR?LE DASH ^;gt QUADR?LE DASH ^;gz m c$;gm z c$ t;gm t c$ z;gt m c$",
    "gz m cw;gm z cw t;gm t cw z;gt m cw;gz ? c$;g? z c$ t;g? t c$ z;gt ? c$;gz ? cw;g? z cw t;g? t cw z;gt ? cw",
    "gz ^ c$;g^ z c$ t;g? t c$ m z;gm t c$ ? z;g^ t c$ z;gm z c$ ? t;g? z c$ m t;gt ^ c$;gz ^ cw;g^ z cw t",
    "g? t cw m z;gm t cw ? z;g^ t cw z;gm z cw ? t;g? z cw m t;gt ^ cw;gz m cu;gw t c$ m z;g$ t cw m z;gm z cu t",
    "gm t cu z;g$ z cw m t;gw z c$ m t;gt m cu;gz ? cu;gw t c$ ? z;g$ t cw ? z;g? z cu t;g? t cu z;g$ z cw ? t",
    "gw z c$ ? t;gt ? cu;gz ^ cu;gw t c$ ^ z;g$ t cw ^ z;g^ z cu t;g? t cm u z;gm t c? u z;g^ t cu z;gw ? t c$ m z",
    "g$ ? t cw m z;gw m t c$ ? z;g$ m t cw ? z;gm z c? u t;g? z cm u t;g$ z cw ^ t;gw z c$ ^ t;gt ^ cu;gz l DASH u",
    "gt l DASH u;gz l DASH ^;gt l DASH ^;gl u;gl ^;gm & c$ l;gm l c$ &;gl m c$;gm & cw l;gm l cw &;gl m cw;g? & c$ l",
    "g? l c$ &;gl ? c$;g? & cw l;g? l cw &;gl ? cw;g^ & c$ l;g^ l c$ &;gl ^ c$;g^ & cw l;g^ l cw &;gl ^ cw;gm & cu l",
    "gm l cu &;gl m cu;g? & cu l;g? l cu &;gl ? cu;g^ & cu l;g^ l cu &;gl ^ cu;gz ARC m c$;gz ARC m cw;gz ARC ? cw",
    "gz ARC ? c$;gz DIAGONAL @$ TO 0w;gz DIAGONAL @w TO 0$;gz DIAGONAL CROSS;gz w;gz ?;gz $;gz m;gt w;gt ?;gt $;gt m",
    "gz w ct $;gz ? ct m;gt w cz $;gt ? cz m;@sBLOCK;0ONE EIGHTH BLOCK;0ONE QUARTER BLOCK;0THREE EIGHTHS BLOCK",
    "0sBLOCK;0FIVE EIGHTHS BLOCK;0THREE QUARTERS BLOCK;0SEVEN EIGHTHS BLOCK;FULL BLOCK;w SEVEN EIGHTHS BLOCK",
    "w THREE QUARTERS BLOCK;w FIVE EIGHTHS BLOCK;w sBLOCK;w THREE EIGHTHS BLOCK;w ONE QUARTER BLOCK",
    "w ONE EIGHTH BLOCK;$ sBLOCK;z SHADE;MEDIUM SHADE;DARK SHADE;@ONE EIGHTH BLOCK;$ ONE EIGHTH BLOCK;7 0w;7 0$;7 @w",
    "7 @w c0w c0$;7 @w c0$;7 @w c@$ c0w;7 @w c@$ c0$;7 @$;7 @$ c0w;7 @$ c0w c0$;f +;|+;|+ ~ROUNDED CORNERS",
    "|+ CONTAINING f *+;+ ~u FILL;+ ~^ FILL;+ ~ORTHOGONAL CROSSHATCH FILL;+ ~@w TO 0$ FILL;+ ~@$ TO 0w FILL",
    "+ ~DIAGONAL CROSSHATCH FILL;f *+;|*+;f RECTANGLE;|RECTANGLE;f ^ RECTANGLE;|^ RECTANGLE;f PARALLELOGRAM",
    "|PARALLELOGRAM;f ?a>;|?a>;f ?a*>;|?a*>;f $a>;|$a>;f $a*>;|$a*>;f $aPOINTER;|$aPOINTER;f ma>;|ma>;f ma*>;|ma*>",
    "f wa>;|wa>;f wa*>;|wa*>;f waPOINTER;|waPOINTER;f DIAMOND;|DIAMOND;|DIAMOND CONTAINING f *DIAMOND;FISHEYE",
    "LOZENGE;|j;DOTTED j;j ~^ FILL;BULLSEYE;f j;j ~w sf;j ~$ sf;j ~0sf;j ~@sf;j ~@$ 7 f;j ~ALL BUT @w 7 f;w sf j",
    "$ sf j;INVERSE BULLET;INVERSE |j;@sINVERSE |j;0sINVERSE |j;@w 7 CIRCULAR ARC;@$ 7 CIRCULAR ARC",
    "0$ 7 CIRCULAR ARC;0w 7 CIRCULAR ARC;@sj;0sj;f 0$ >;f 0w >;f @w >;f @$ >;|BULLET;+ ~w sf;+ ~$ sf",
    "+ ~@w DIAGONAL sf;+ ~0$ DIAGONAL sf;|+ ~^ BISECTING LINE;|?a> ~DOT;?a> ~w sf;?a> ~$ sf;LARGE j;|+ ~@w 7",
    "|+ ~0w 7;|+ ~0$ 7;|+ ~@$ 7;|j ~@w 7;|j ~0w 7;|j ~0$ 7;|j ~@$ 7;@w >;@$ >;0w >;|MEDIUM +;f MEDIUM +;|MEDIUM *+",
    "f MEDIUM *+;0$ >;f SUN ~RAYS;CLOUD;UMBRELLA;SNOWMAN;COMET;f STAR;|STAR;zNING;THUNDERSTORM;SUN;ASCENDING NODE",
    "DESCENDING NODE;CONJUNCTION;OPPOSITION;f TELEPHONE;|TELEPHONE;BALLOT BOX;BALLOT BOX ~CHECK;BALLOT BOX ~X",
    "SALTIRE;UMBRELLA ~RAIN DROPS;HOT BEVERAGE;|SHOGI PIECE;f SHOGI PIECE;SHAMROCK;! ROTATED FLORAL HEART BULLET",
    "f w POINTING INDEX;f $ POINTING INDEX;|w POINTING INDEX;|? POINTING INDEX;|$ POINTING INDEX;|m POINTING INDEX",
    "SKULL cCROSSBONES;CAUTION %;RADIOACTIVE %;BIOHAZARD %;CADUCEUS;ANKH;ORTHODOX CROSS;CHI RHO;CROSS OF LORRAINE",
    "CROSS OF JERUSALEM;STAR cCRESCENT;FARSI =;ADI SHAKTI;HAMMER cSICKLE;PEACE =;YIN YANG;TRIGRAM F6HEAVEN",
    "TRIGRAM F6LAKE;TRIGRAM F6FIRE;TRIGRAM F6THUNDER;TRIGRAM F6WIND;TRIGRAM F6WATER;TRIGRAM F6MOUNTAIN",
    "TRIGRAM F6EARTH;WHEEL OF DHARMA;|FROWNING FACE;|SMILING FACE;f SMILING FACE;|SUN ~RAYS;FIRST QUARTER MOON",
    "LAST QUARTER MOON;MERCURY;FEMALE %;EARTH;MALE %;J?ITER;SATURN;URANUS;NEPTUNE;PLUTO;ARIES;TAURUS;GEMINI;CANCER",
    "LEO;VIRGO;LIBRA;SCORPIUS;SAGITTARIUS;CAPRICORN;AQUARIUS;PISCES;|CHESS KING;|CHESS QUEEN;|CHESS ROOK",
    "|CHESS BISHOP;|CHESS KNIGHT;|CHESS PAWN;f CHESS KING;f CHESS QUEEN;f CHESS ROOK;f CHESS BISHOP;f CHESS KNIGHT",
    "f CHESS PAWN;f SPADE SUIT;|HEART SUIT;|DIAMOND SUIT;f CLUB SUIT;|SPADE SUIT;f HEART SUIT;f DIAMOND SUIT",
    "|CLUB SUIT;HOT SPRINGS;QUARTER NOTE;EIGHTH NOTE;BEAMED EIGHTH NOTES;BEAMED SIXTEENTH NOTES;MUSIC FLAT %",
    "MUSIC NATURAL %;MUSIC SHARP %"]),
  (10176, ["THREE DIMENSIONAL ANGLE;|> CONTAINING *|>;PERPENDICULAR;OPEN SUBSET;OPEN S?ERSET",
    "w S-SHAPED BAG DELIMITER;$ S-SHAPED BAG DELIMITER;6~DOT INSIDE;REVERSE SOLIDUS PRECEDING SUBSET",
    "S?ERSET PRECEDING SOLIDUS;^ e ~u /;2RISING DIAGONAL;LONG DIVISION;2FALLING DIAGONAL;+D LOGICAL AND",
    "+D LOGICAL OR;|DIAMOND ~CENTRED DOT;c~DOT;n OPENING ?WARDS;0$ CORNER ~DOT;@w CORNER ~DOT;w OUTER JOIN",
    "$ OUTER JOIN;FULL OUTER JOIN;LARGE ? TACK;LARGE m TACK;w c$ l TURNSTILE;w c$ TACK;w MULTIMAP;LONG $ TACK",
    "LONG w TACK;? TACK ~j ABOVE;LOZENGE DIVIDED BY u RULE;|CONCAVE-SIDED DIAMOND;|CONCAVE-SIDED DIAMOND ~w_TICK",
    "|CONCAVE-SIDED DIAMOND ~$_TICK;|+ ~w_TICK;|+ ~$_TICK;2w |+ h;2$ |+ h;2w ANGLE h;2$ ANGLE h;2w l ANGLE h",
    "2$ l ANGLE h;2w |TORTOISE SHELL h;2$ |TORTOISE SHELL h;2w FLATTENED PARENTHESIS;2$ FLATTENED PARENTHESIS",
    "?_QUADR?LE d;m_QUADR?LE d;ANTICLOCKWISE GAPPED j d;CLOCKWISE GAPPED j d;$ d ~jD PLUS;LONG w_d;LONG $_d",
    "LONG w $ d;LONG w_l d;LONG $_l d;LONG w $ l d;LONG w_d FROM e;LONG $_d FROM e;LONG w_l d FROM e",
    "LONG $_l d FROM e;LONG $_SQUIGGLE d"])]

/-- names of control characters and further names of others -/
def charAliases : List (String × Nat) := [
  ("NULL", 0), ("START OF HEADING", 1), ("START OF TEXT", 2), ("END OF TEXT", 3), ("END OF TRANSMISSION", 4),
  ("ENQUIRY", 5), ("ACKNOWLEDGE", 6), ("ALERT", 7), ("BACKSPACE", 8), ("CHARACTER TABULATION", 9),
  ("HORIZONTAL TABULATION", 9), ("TAB", 9), ("LINE FEED", 10), ("NEW LINE", 10), ("END OF LINE", 10), ("LF", 10),
  ("NL", 10), ("EOL", 10), ("LINE TABULATION", 11), ("VERTICAL TABULATION", 11), ("FORM FEED", 12), ("FF", 12),
  ("CARRIAGE RETURN", 13), ("CR", 13), ("SHIFT OUT", 14), ("SHIFT IN", 15), ("CANCEL", 24), ("SUBSTITUTE", 26),
  ("ESCAPE", 27), ("ESC", 27), ("DELETE", 127), ("DEL", 127), ("NEXT LINE", 133), ("NEL", 133), ("NBSP", 160),
  ("SHY", 173), ("HT", 9), ("VT", 11), ("BS", 8), ("BEL", 7), ("NUL", 0), ("SP", 32)]

end TableauTutor.Text
