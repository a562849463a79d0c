/-
The dictionary that is used when no other is given: the definitions of the galaxy
program, as far as it is known what they do.
-/
import Decombinator.Dictionary

namespace Decombinator.Dictionary

private def named (ref name : String) : Entry :=
  ⟨ref, name, none⟩

private def predicate (ref name : String) (arity : Int) : Entry :=
  ⟨ref, name, some (.func arity .bool)⟩

def builtin : Dictionary where
  entries := [
    named ":1029" "Bitmap.Galaxy",
    named ":1030" "Bitmap.App",
    named ":1031" "Bitmap.Mul",
    named ":1032" "Bitmap.Pow2",
    named ":1034" "Bitmap.TotalEnergy",
    named ":1035" "Bitmap.TwoSquares",
    named ":1036" "Bitmap.Define",
    named ":1037" "Bitmap.Sum",
    named ":1038" "Bitmap.FourDots",
    named ":1039" "Bitmap.Bomb",
    named ":1040" "Bitmap.Thruster",
    named ":1041" "Bitmap.VarX0",
    named ":1042" "Bitmap.VarX1",
    named ":1043" "SparseBitmap.SymbolHuman",
    named ":1044" "SparseBitmap.SymbolEndo",
    named ":1045" "SparseBitmap.SymbolAlien1",
    named ":1046" "SparseBitmap.SymbolAlien2",
    named ":1047" "SparseBitmap.SymbolAlien3",
    named ":1048" "SparseBitmap.SymbolAlien4",
    named ":1049" "SparseBitmap.SymbolAlien5",
    named ":1050" "SparseBitmap.SymbolAlien6",
    named ":1051" "SparseBitmap.SymbolAlien7",
    named ":1052" "SparseBitmap.SymbolAlien8",
    named ":1053" "SparseBitmap.SymbolAlien9",
    named ":1059" "SparseBitmap.PictureHuman",
    named ":1060" "SparseBitmap.PictureEndo",
    named ":1061" "SparseBitmap.PictureAlien1",
    named ":1062" "SparseBitmap.PictureAlien2",
    named ":1063" "SparseBitmap.PictureAlien3",
    named ":1064" "SparseBitmap.PictureAlien4",
    named ":1065" "SparseBitmap.PictureAlien5",
    named ":1066" "SparseBitmap.PictureAlien6",
    named ":1067" "SparseBitmap.PictureAlien7",
    named ":1068" "SparseBitmap.PictureAlien8",
    named ":1069" "SparseBitmap.PictureAlien9",
    named ":1075" "SparseBitmap.LargeTrue",
    named ":1076" "SparseBitmap.LargeFalse",
    named ":1077" "SparseBitmap.LargeHeatMax",
    named ":1078" "SparseBitmap.LargeThruster",
    named ":1079" "Space.Aliens",
    named ":1080" "Bitmap.Laser",
    named ":1081" "Bitmap.Split",
    named ":1082" "Bitmap.Game",
    named ":1083" "Bitmap.Attacker1",
    named ":1084" "Bitmap.Attacker2",
    named ":1085" "Bitmap.Attacker3",
    named ":1086" "Bitmap.Attacker4",
    named ":1087" "Bitmap.Defender1",
    named ":1088" "Bitmap.Defender2",
    named ":1089" "Bitmap.Defender3",
    named ":1090" "Bitmap.Defender4",
    named ":1091" "Machine.Attackers",
    named ":1092" "Machine.Defenders",
    named ":1093" "Bitmap.SplitClose",
    named ":1097" "Bitmap.Energy",
    named ":1098" "Bitmap.LaserMax",
    named ":1099" "Bitmap.Cooldown",
    named ":1100" "Bitmap.Life",
    named ":1101" "Bitmap.Heat",
    named ":1102" "Machine.Params",
    named ":1103" "SparseBitmap.Space1",
    named ":1104" "SparseBitmap.Space2",
    named ":1105" "SparseBitmap.Space3",
    named ":1107" "Print.thurster_range",
    named ":1108" "Print.heat_range",
    named ":1109" "Msg.error",
    named ":1110" "Msg.create",
    named ":1111" "Msg.join",
    named ":1112" "Msg.start",
    named ":1113" "Msg.command",
    named ":1114" "Msg.history",
    named ":1115" "cons",
    named ":1116" "List.hd",
    named ":1117" "Int.pow2",
    named ":1118" "Int.log2",
    named ":1119" "Int.log_x_y",
    named ":1120" "Int.abs",
    named ":1121" "Int.max",
    named ":1122" "Int.min",
    predicate ":1124" "List.mem" 2,
    named ":1126" "List.map",
    named ":1127" "List.mapi",
    named ":1128" "List.len",
    named ":1131" "List.concat",
    named ":1132" "List.foldl",
    named ":1133" "List.foldr",
    named ":1134" "List.flatten",
    named ":1135" "List.filter",
    named ":1136" "List.filteri",
    named ":1137" "List.exists",
    named ":1138" "IntList.make_rev",
    named ":1139" "IntList.make",
    named ":1141" "List.nth",
    named ":1142" "List.nth_list",
    named ":1143" "IntList.sum",
    named ":1144" "List.replace_nth",
    named ":1146" "IntList.max",
    named ":1147" "List.select",
    named ":1149" "IntList.min",
    named ":1150" "List.map_sort",
    named ":1152" "List.sort",
    named ":1153" "List.filter2",
    named ":1155" "IntList.unique",
    named ":1162" "Vec2.new",
    named ":1166" "Rect.new",
    named ":1167" "Rect.from_vecs",
    named ":1168" "Rect.from_center",
    named ":1169" "Rect.move",
    named ":1172" "Vec2.add",
    named ":1173" "Vec2.add_x_y",
    named ":1174" "Vec2.add_x",
    named ":1175" "Vec2.x",
    named ":1176" "Vec2.x_list",
    named ":1178" "Vec2.y",
    named ":1179" "Vec2.add_y",
    named ":1180" "Vec2.mul",
    named ":1181" "Vec2.distance",
    named ":1183" "Vec2List.map_add",
    named ":1187" "Vec2List.map_add_x",
    named ":1188" "Vec2List.map_add_y",
    named ":1189" "Result.no_data",
    named ":1190" "Result.to_render",
    named ":1191" "Result.to_send",
    named ":1193" "Image.dot_line",
    named ":1194" "Image.line",
    named ":1195" "Image.x_line",
    named ":1196" "Image.x_dot_line",
    named ":1197" "Image.y_line",
    named ":1198" "Image.center_rect_bound",
    named ":1199" "Image.center_fill_rect",
    named ":1200" "Image.rect_bound",
    named ":1201" "Image.fill_rect",
    named ":1202" "Image.fill_rect_aux",
    named ":1203" "Int.in_range",
    predicate ":1204" "Image.contained_rect" 2,
    named ":1205" "Image.make_bound",
    named ":1206" "Image.from_uint",
    named ":1207" "Bit.make",
    named ":1208" "Bit.make_n",
    named ":1209" "Bit.from_int",
    named ":1210" "Int.ceil_sqr",
    named ":1212" "Image.from_int_or_symbol",
    named ":1213" "Image.from_int_or_symbol_with_size",
    named ":1214" "Image.from_int",
    named ":1215" "Image.from_int_left",
    named ":1216" "Image.from_int_left_top",
    named ":1217" "Image.from_int_with_size",
    named ":1218" "Image.from_int_list",
    named ":1220" "Image.from_image_list",
    named ":1221" "Image.from_image_list_with_mergin",
    named ":1222" "Image.from_bitmap_list",
    named ":1224" "Image.bounding_box",
    named ":1225" "Image.from_bitmap",
    named ":1226" "Image.from_sparse_bitmap",
    named ":1227" "Opening.Scene",
    named ":1228" "Opening.run",
    named ":1229" "Opening.draw_count_down",
    named ":1231" "History.InitSceneState",
    named ":1232" "History.Scene",
    named ":1247" "History.HistoryList",
    named ":1253" "History.run",
    named ":1305" "Pelmanism.Scene",
    named ":1306" "Pelmanism.rotation_table",
    named ":1303" "Pelmanism.size",
    named ":1304" "Pelmanism.tiles",
    named ":1307" "Pelmanism.KindTile",
    named ":1308" "Pelmanism.KindGalaxy",
    named ":1309" "Pelmanism.run",
    named ":1311" "Pelmanism.update_game",
    named ":1312" "Pelmanism.solution_index",
    named ":1313" "Pelmanism.is_solved",
    named ":1314" "Pelmanism.update",
    named ":1315" "Pelmanism.draw",
    named ":1316" "Pelmanism.draw_tile",
    named ":1328" "Garaxy.ModeOpening",
    named ":1329" "Garaxy.ModeCariblation",
    named ":1330" "Garaxy.ModeSpace",
    named ":1331" "Garaxy.ModeTictactoe",
    named ":1332" "Garaxy.ModePelmanism",
    named ":1333" "Garaxy.ModeHistory",
    named ":1334" "Garaxy.ModeTutorial",
    named ":1335" "Garaxy.ModeError",
    named ":1336" "Garaxy.Scenes",
    named ":1337" "Error.run",
    named ":1338" "Garaxy.run",
    named ":1339" "Garaxy.next_scene",
    named ":1342" "Garaxy.run_internal",
    named ":1343" "Garaxy.dispatch",
    named ":1344" "Tutorial.Scene",
    named ":1346" "Tutorial.run",
    named ":1420" "Space.Scene",
    named ":1427" "Space.run",
    named ":1445" "Cariblation.Scene",
    named ":1446" "Cariblation.run",
    named ":1451" "TicTacToe.Scene",
    named ":1471" "TicTacToe.run",
    named ":1472" "Interact.empty",
    named ":1473" "Interact.seq2",
    named ":1474" "Interact.seq3",
    named ":1475" "Interact.seq4",
    named ":1476" "Interact.seq",
    named ":1477" "Interact.find_clicked",
    named ":1478" "Interact.push_image",
    named ":1490" "Interact.draw_clickable_at"]

end Decombinator.Dictionary
